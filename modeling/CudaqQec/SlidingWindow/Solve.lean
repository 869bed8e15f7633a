import CudaqQec.SlidingWindow.Syndrome

/-!
# From windows to the whole syndrome

* `SlidingWindow.mods_eq`: when a window is decoded, what is backed out of its first layer is what the
  window before it has committed, and nothing is backed out of its other layers.
* `SlidingWindow.solvesSyndrome_iff`: exactly when the windows solve the whole syndrome.
-/

namespace CudaqQec

/-! ## Counting over ranges of columns -/

/-- A count over numbers that all lie in one range is the count over that range. -/
theorem countP_range_of_support {p : Nat → Bool} {N a m : Nat} (hle : a + m ≤ N)
    (h : ∀ c < N, p c = true → a ≤ c ∧ c < a + m) :
    (List.range N).countP p = (List.range m).countP fun c => p (a + c) := by
  obtain ⟨k, rfl⟩ : ∃ k, N = a + (m + k) := ⟨N - a - m, by omega⟩
  have hbefore : (List.range a).countP p = 0 := by
    rw [List.countP_eq_zero]
    intro c hc hp
    have hc := List.mem_range.mp hc
    have := h c (by omega) hp
    omega
  have hafter : ((List.range k).map (m + ·)).countP (fun c => p (a + c)) = 0 := by
    rw [List.countP_map, List.countP_eq_zero]
    intro c hc hp
    have hc := List.mem_range.mp hc
    have := h (a + (m + c)) (by omega) hp
    omega
  rw [List.range_add, List.countP_append, hbefore, List.countP_map, Nat.zero_add, List.range_add,
    List.countP_append]
  show (List.range m).countP (fun c => p (a + c)) + ((List.range k).map (m + ·)).countP
    (fun c => p (a + c)) = _
  rw [hafter, Nat.add_zero]

theorem countP_range_add (p : Nat → Bool) (m n : Nat) :
    (List.range (m + n)).countP p =
      (List.range m).countP p + (List.range n).countP fun c => p (m + c) := by
  rw [List.range_add, List.countP_append, List.countP_map]
  rfl

namespace SlidingWindow

variable {d : SlidingWindow} {inner : Nat → List ℚ → DecoderResult} {syn : List ℚ}

/-! ## What is assembled -/

theorem getD_convertVecSoftToHard {xs : List ℚ} {c : Nat} (hc : c < xs.length) :
    (convertVecSoftToHard xs).getD c false = decide (1 / 2 ≤ xs.getD c 0) := by
  simp [convertVecSoftToHard, List.getD_eq_getElem?_getD, hc]

theorem mods_succ {w : Nat} (hw : w + 1 < d.numWindows) :
    (d.elementState inner (d.layersOf syn) (w + 1)).1 =
      d.backOut (d.firstColumn w) (d.numCommitted w) (d.layout.roundStart (d.startRound (w + 1)))
        (d.layout.roundStart (d.startRound (w + 1) + 1) - 1)
        (d.elementState inner (d.layersOf syn) (w + 1)).2.result
        (d.elementState inner (d.layersOf syn) w).1 := by
  have hlt : w < d.numWindows - 1 := by omega
  rw [elementState]
  simp only [backOutWindow, if_pos hlt, numCommitted]
  rfl

section
variable (hd : d.Accepted) (h : d.Meets)

include hd h

theorem numCommitted_le {w : Nat} (hw : w < d.numWindows) : d.numCommitted w ≤ d.numColumns w := by
  by_contra hgt
  have := ((h.commitsOnce hd).inner w hw (d.numColumns w) (by omega)).1
  omega

theorem committed_lt {w c : Nat} (hw : w < d.numWindows) (hc : c < d.numCommitted w) :
    d.firstColumn w + c < d.H.numCols := by
  have := numCommitted_le hd h hw
  have := (hd.window w hw).columns_le
  omega

end

section
variable (hsz : d.Sized inner)

include hsz

/-! ## Window after window -/

theorem result_succ {w : Nat} (hw : w < d.numWindows) :
    (d.elementState inner (d.layersOf syn) (w + 1)).2.result =
      commitBits (d.firstColumn w) (d.numCommitted w) (d.hardResult inner syn w)
        (d.elementState inner (d.layersOf syn) w).2.result := by
  rw [elementState]
  simp only [commitWindow, hsz w hw]
  rfl

variable (hd : d.Accepted) (h : d.Meets)

include hd h

/-- A committed entry is not written again. -/
theorem getD_result {w w' c : Nat} (hlt : w < w') (hw' : w' ≤ d.numWindows)
    (hc : c < d.H.numCols) (hin : d.firstColumn w ≤ c ∧ c < d.firstColumn w + d.numCommitted w) :
    (d.elementState inner (d.layersOf syn) w').2.result.getD c 0 =
      bitValue ((d.hardResult inner syn w).getD (c - d.firstColumn w) false) := by
  induction w', hlt using Nat.le_induction with
  | base =>
    rw [result_succ hsz (by omega), getD_commitBits _ _ _ (by simpa [blockSize] using hc), if_pos hin]
  | succ w' hlt ih =>
    have hdisj := (h.commitsOnce hd).disjoint w w' (by omega) (by omega)
    rw [result_succ hsz (by omega), getD_commitBits _ _ _ (by simpa [blockSize] using hc),
      if_neg (by omega), ih (by omega)]

/-- The assembled bit of a committed column is the one its window found. -/
theorem getD_assembled {w c : Nat} (hw : w < d.numWindows) (hc : c < d.H.numCols)
    (hin : d.firstColumn w ≤ c ∧ c < d.firstColumn w + d.numCommitted w) :
    (convertVecSoftToHard (d.assembled inner syn).result).getD c false =
      (d.hardResult inner syn w).getD (c - d.firstColumn w) false := by
  have hlen : c < (d.assembled inner syn).result.length := by
    rw [assembled, length_result]
    exact hc
  rw [getD_convertVecSoftToHard hlen, assembled, getD_result hsz hd h hw (le_refl _) hc hin,
    hard_bitValue]

variable (d inner syn) in
def committedHits (w r : Nat) : Nat :=
  (List.range (d.numCommitted w)).countP fun c =>
    decide (r ∈ d.column (d.firstColumn w + c)) &&
      (convertVecSoftToHard (d.assembled inner syn).result).getD (d.firstColumn w + c) false

/-- Each window backs its committed columns out of the first layer of the next window. -/
theorem getD_mods_succ {w r : Nat} (hw : w + 1 < d.numWindows) (hr : r < d.layout.numRows) :
    (d.elementState inner (d.layersOf syn) (w + 1)).1.getD r false =
      ((d.elementState inner (d.layersOf syn) w).1.getD r false ^^
        decide (d.layout.rowToRound r = d.startRound (w + 1) ∧
          d.committedHits inner syn w r % 2 = 1)) := by
  have hcols : ∀ c, (d.column c).Nodup := fun c => (hd.increasing c).imp Nat.ne_of_lt
  have hend := hd.window_end hw
  have hW := hd.windowSize_pos
  have hround : d.startRound (w + 1) < d.layout.numRounds := by
    unfold startRound
    omega
  have hstart := hd.fits.roundStart_lt_succ hround
  have hlen : r < (d.elementState inner (d.layersOf syn) w).1.length := by
    rw [length_mods, syndromeSize, hd.numRows]
    exact hr
  have hrange : (d.layout.roundStart (d.startRound (w + 1)) ≤ r ∧
      r ≤ d.layout.roundStart (d.startRound (w + 1) + 1) - 1) ↔
      d.layout.rowToRound r = d.startRound (w + 1) := by
    rw [hd.fits.rowToRound_eq_iff hr hround]
    omega
  have hcount : ((List.range (d.numCommitted w)).countP fun c =>
      decide ((d.elementState inner (d.layersOf syn) (w + 1)).2.result.getD (d.firstColumn w + c) 0 ≠ 0)
        && decide (r ∈ d.column (d.firstColumn w + c))) = d.committedHits inner syn w r := by
    apply List.countP_congr
    intro c hc
    have hc := List.mem_range.mp hc
    have hlt := committed_lt hd h (show w < d.numWindows by omega) hc
    rw [getD_result hsz hd h (Nat.lt_succ_self w) (by omega) hlt (by omega),
      getD_assembled hsz hd h (show w < d.numWindows by omega) hlt (by omega)]
    simp only [bitValue_ne_zero, Bool.and_eq_true, decide_eq_true_eq]
    exact and_comm
  rw [mods_succ hw, getD_backOut hcols _ _ _ _ _ hlen, hcount]
  simp only [hrange]

/-- When window `w` is decoded, nothing is backed out of its layers but what the window before it has
committed, and that only out of the first. -/
theorem mods_eq {w r : Nat} (hw : w < d.numWindows) (hr : r < d.layout.numRows)
    (hround : d.startRound w ≤ d.layout.rowToRound r) :
    (d.elementState inner (d.layersOf syn) w).1.getD r false =
      decide (0 < w ∧ d.layout.rowToRound r = d.startRound w ∧
        d.committedHits inner syn (w - 1) r % 2 = 1) := by
  induction w with
  | zero => simp [elementState]
  | succ w ih =>
    have hstep := hd.stepSize_pos
    have hsucc : d.startRound (w + 1) = d.startRound w + d.stepSize := Nat.succ_mul _ _
    have hne : ¬ d.layout.rowToRound r = d.startRound w := by omega
    rw [getD_mods_succ hsz hd h hw hr, ih (by omega) (by omega)]
    simp [hne]

/-! ## Row by row -/

variable {s : List Bool} (hs : s.length = d.syndromeSize)

include hs

/-- The equation of a row, in the window that commits what begins in its layer. -/
theorem committedHits_of_solves (ht : d.TakesBeginning) {w r : Nat} (hw : w < d.numWindows)
    (hsolves : d.SolvesWindow inner (softSyndrome s) w) (hr : r < d.layout.numRows)
    (hstart : d.startRound w ≤ d.layout.rowToRound r)
    (hnext : w + 1 < d.numWindows → d.layout.rowToRound r < d.startRound (w + 1)) :
    decide (d.committedHits inner (softSyndrome s) w r % 2 = 1) =
      (s.getD r false ^^ (d.elementState inner (d.layersOf (softSyndrome s)) w).1.getD r false) := by
  have hwin := hd.window w hw
  have hend := hd.window_end hw
  have hround := (hd.fits.rowToRound_spec hr).1
  have hlt : d.layout.rowToRound r < d.startRound w + d.windowSize := by
    have hstep := hd.stepSize_le
    have hsucc : d.startRound (w + 1) = d.startRound w + d.stepSize := Nat.succ_mul _ _
    have hrounds := hd.rounds
    by_cases hlast : w + 1 < d.numWindows
    · have := hnext hlast
      omega
    · obtain rfl : w = d.numWindows - 1 := by omega
      unfold startRound
      omega
  -- row `r` is row `i` of the window's own matrix
  have hrow := (hd.fits.rowToRound_between hr (show d.startRound w ≤ d.layout.numRounds by omega)
    (show d.startRound w + d.windowSize ≤ d.layout.numRounds from hend)).mpr ⟨hstart, hlt⟩
  obtain ⟨i, rfl⟩ : ∃ i, r = d.layout.roundStart (d.startRound w) + i :=
    ⟨r - d.layout.roundStart (d.startRound w), by omega⟩
  have hi : i < (d.innerMatrix w).rows := by
    rw [hwin.rows]
    omega
  have heq := (solvesWindow_iff hd hs hw).mp hsolves i hi
  rw [← heq]
  have hle := numCommitted_le hd h hw
  -- of the columns of the window only committed ones touch the row
  have hsupport : ∀ c < d.numColumns w, ((d.innerMatrix w).get i c &&
      (d.hardResult inner (softSyndrome s) w).getD c false) = true →
      0 ≤ c ∧ c < 0 + d.numCommitted w := by
    intro c hc hset
    refine ⟨Nat.zero_le _, ?_⟩
    rw [Nat.zero_add]
    rw [Bool.and_eq_true, hwin.bits i hi c hc, decide_eq_true_eq] at hset
    have hcols := hwin.columns_le
    by_cases hlast : w + 1 < d.numWindows
    · have hbegin := (round_between hd hset.1).1
      have hne := List.ne_nil_of_mem hset.1
      have hnot := (firstColumn_le_iff hd ht hlast (by omega) hne).not.mpr (by
        have := hnext hlast
        omega)
      have := h.numCommitted_eq hd hlast
      omega
    · rw [numCommitted, if_neg (by omega)]
      exact hc
  rw [countP_range_of_support (by omega) hsupport, committedHits]
  congr 3
  apply List.countP_congr
  intro c hc
  have hc := List.mem_range.mp hc
  have hcol := committed_lt hd h hw hc
  rw [Nat.zero_add, hwin.bits i hi c (by omega), getD_assembled hsz hd h hw hcol (by omega),
    Nat.add_sub_cancel_left]

/-! ## A row over all windows -/

omit hs hsz in
/-- The columns that have a row are committed by the window of its layer, or, in a window's first layer,
by the window before. -/
theorem countP_column (ht : d.TakesBeginning) (htwo : d.SpansTwo) {w r : Nat} (hw : w < d.numWindows)
    (hstart : d.startRound w ≤ d.layout.rowToRound r)
    (hnext : w + 1 < d.numWindows → d.layout.rowToRound r < d.startRound (w + 1)) :
    ((List.range d.H.numCols).countP fun c => decide (r ∈ d.column c) &&
      (convertVecSoftToHard (d.assembled inner syn).result).getD c false) =
      d.committedHits inner syn w r +
        if 0 < w ∧ d.layout.rowToRound r = d.startRound w then d.committedHits inner syn (w - 1) r
        else 0 := by
  have hfit : d.firstColumn w + d.numCommitted w ≤ d.H.numCols := by
    have := numCommitted_le hd h hw
    have := (hd.window w hw).columns_le
    omega
  -- the column begins in the row's layer or in the one before, so it is committed by then
  have hcol : ∀ c < d.H.numCols, r ∈ d.column c → c < d.firstColumn w + d.numCommitted w ∧
      d.layout.rowToRound r ≤ d.firstRound c + 1 := by
    intro c hc hmem
    have hne := List.ne_nil_of_mem hmem
    have hbegin := (round_between hd hmem).1
    refine ⟨?_, htwo c hc _ (headD_mem hne) _ hmem⟩
    by_cases hlast : w + 1 < d.numWindows
    · have hnot := (firstColumn_le_iff hd ht hlast hc hne).not.mpr (by
        have := hnext hlast
        omega)
      have := h.numCommitted_eq hd hlast
      omega
    · obtain rfl : w = d.numWindows - 1 := by omega
      have := ((hd.window _ hw).selects _ (by omega)).mp h.last
      rw [numCommitted_last]
      omega
  by_cases hfirst : 0 < w ∧ d.layout.rowToRound r = d.startRound w
  · obtain ⟨v, rfl⟩ : ∃ v, w = v + 1 := ⟨w - 1, by omega⟩
    have hstep := hd.stepSize_pos
    have hsucc : d.startRound (v + 1) = d.startRound v + d.stepSize := Nat.succ_mul _ _
    have hprev := h.numCommitted_eq hd hw
    have hsupport : ∀ c < d.H.numCols, (decide (r ∈ d.column c) &&
        (convertVecSoftToHard (d.assembled inner syn).result).getD c false) = true →
        d.firstColumn v ≤ c ∧ c < d.firstColumn v + (d.numCommitted v + d.numCommitted (v + 1)) := by
      intro c hc hset
      rw [Bool.and_eq_true, decide_eq_true_eq] at hset
      obtain ⟨hlt, hspan⟩ := hcol c hc hset.1
      have hne := List.ne_nil_of_mem hset.1
      exact ⟨(firstColumn_le_iff hd ht (by omega) hc hne).mpr (by omega), by omega⟩
    rw [if_pos hfirst, countP_range_of_support (by omega) hsupport, countP_range_add, Nat.add_comm,
      Nat.add_sub_cancel]
    simp only [← Nat.add_assoc, hprev]
    rfl
  · have hsupport : ∀ c < d.H.numCols, (decide (r ∈ d.column c) &&
        (convertVecSoftToHard (d.assembled inner syn).result).getD c false) = true →
        d.firstColumn w ≤ c ∧ c < d.firstColumn w + d.numCommitted w := by
      intro c hc hset
      rw [Bool.and_eq_true, decide_eq_true_eq] at hset
      obtain ⟨hlt, hspan⟩ := hcol c hc hset.1
      have hne := List.ne_nil_of_mem hset.1
      refine ⟨(firstColumn_le_iff hd ht hw hc hne).mpr ?_, hlt⟩
      rcases Nat.eq_zero_or_pos w with rfl | hpos
      · simp [startRound]
      · have : d.layout.rowToRound r ≠ d.startRound w := fun he => hfirst ⟨hpos, he⟩
        omega
    rw [if_neg hfirst, countP_range_of_support hfit hsupport]
    rfl

end

/-- The column lists of the decoder have the entries of the matrix it was made from. -/
theorem entry_eq_mem {m : SparseBinaryMatrix} (hH : d.H = m.canonicalize.toCsc) (r c : Nat) :
    m.entry r c = decide (r ∈ d.column c) := by
  have hcount : (d.column c).count r = m.count r c % 2 := by
    rw [column, hH, SparseBinaryMatrix.toNestedCsc_toCsc, SparseBinaryMatrix.count_toNestedCsc,
      SparseBinaryMatrix.count_canonicalize]
  rw [SparseBinaryMatrix.entry]
  apply decide_eq_decide.mpr
  rw [← List.count_pos_iff, hcount]
  omega

/-- Windows that take in what begins in their layers solve the whole syndrome. -/
theorem solvesSyndrome_of_takesBeginning {m : SparseBinaryMatrix} (hd : d.Accepted)
    (hH : d.H = m.canonicalize.toCsc) (ht : d.TakesBeginning) (htwo : d.SpansTwo) :
    d.SolvesSyndrome m := by
  intro inner hsz s hs hsolves
  have h := meets_of_takesBeginning hd ht
  refine ⟨decode_fresh hd hsz (by simpa [softSyndrome] using hs), ?_⟩
  have hrows : m.numRows = d.layout.numRows := by
    rw [← hd.numRows, hH]
    simp
  have hcols : m.numCols = d.H.numCols := by
    rw [hH]
    simp
  have hlen : s.length = d.layout.numRows := by
    rw [hs, syndromeSize, hd.numRows]
  apply List.ext_getElem
  · simp [SparseBinaryMatrix.mulVec, hrows, hlen]
  intro r hr hr'
  have hr' : r < d.layout.numRows := by omega
  rw [← List.getD_eq_getElem _ false hr, ← List.getD_eq_getElem _ false (by omega),
    SparseBinaryMatrix.mulVec, getD_map_range, if_pos (by omega), hcols]
  simp only [entry_eq_mem hH]
  -- the window that commits what begins in the row's layer
  obtain ⟨w, hw, hstart, hnext⟩ := exists_last_le d.startRound (d.numWindows - 1)
    (show d.startRound 0 ≤ d.layout.rowToRound r by simp [startRound])
  have hpos := hd.windows_pos
  have hw : w < d.numWindows := by omega
  have hnext : w + 1 < d.numWindows → d.layout.rowToRound r < d.startRound (w + 1) := by
    intro hlast
    rcases hnext with rfl | hlt
    · omega
    · exact hlt
  have heq := committedHits_of_solves hsz hd h hs ht hw (hsolves w hw) hr' hstart hnext
  rw [mods_eq hsz hd h hw hr' hstart] at heq
  rw [countP_column hd h ht htwo hw hstart hnext]
  by_cases hfirst : 0 < w ∧ d.layout.rowToRound r = d.startRound w
  · rw [if_pos hfirst]
    simp only [hfirst, true_and] at heq
    generalize d.committedHits inner (softSyndrome s) w r = a at heq ⊢
    generalize d.committedHits inner (softSyndrome s) (w - 1) r = b at heq ⊢
    rcases Nat.mod_two_eq_zero_or_one a with ha | ha <;>
      rcases Nat.mod_two_eq_zero_or_one b with hb | hb <;>
      simpa [Nat.add_mod, ha, hb] using heq
  · rw [if_neg hfirst, Nat.add_zero, heq]
    have : ¬ (0 < w ∧ d.layout.rowToRound r = d.startRound w ∧
        d.committedHits inner (softSyndrome s) (w - 1) r % 2 = 1) := fun h => hfirst ⟨h.1, h.2.1⟩
    simp [this]

/-! ## Windows of one layer

A fault that spans two layers is taken in by both their windows. The first one leaves it to the second,
and the second never sees the first layer. -/

theorem backOut_of_zero {first n start stop : Nat} {result : List ℚ} {mods : List Bool}
    (h : ∀ c < n, result.getD (c + first) 0 = 0) :
    d.backOut first n start stop result mods = mods := by
  induction n with
  | zero => rfl
  | succ n ih =>
    rw [backOut_succ, if_neg (not_not.mpr (h n (by omega))), ih fun c hc => h c (by omega)]

variable (d) in
def setOnly (v k w : Nat) (_ : List ℚ) : DecoderResult :=
  ⟨true, (List.range (d.numColumns w)).map fun i => bitValue (decide (w = v ∧ i = k))⟩

theorem sized_setOnly (v k : Nat) : d.Sized (d.setOnly v k) := by
  intro w _ syn
  simp [setOnly]

theorem getD_hardResult_setOnly (v k w i : Nat) :
    (d.hardResult (d.setOnly v k) syn w).getD i false =
      decide (i < d.numColumns w ∧ w = v ∧ i = k) := by
  have hmap : d.hardResult (d.setOnly v k) syn w =
      (List.range (d.numColumns w)).map fun i => decide (w = v ∧ i = k) := by
    simp only [hardResult, convertVecSoftToHard, setOnly, List.map_map]
    apply List.map_congr_left
    intro i _
    exact hard_bitValue _
  rw [hmap, getD_map_range]
  split <;> simp_all

section
variable {v k : Nat} (hk : d.numCommitted v ≤ k)

include hk

/-- As long as that column is not committed, nothing is. -/
theorem result_setOnly {w : Nat} (hw : w ≤ d.numWindows) :
    (d.elementState (d.setOnly v k) (d.layersOf syn) w).2.result = List.replicate d.blockSize 0 := by
  induction w with
  | zero => rfl
  | succ w ih =>
    rw [result_succ (sized_setOnly v k) hw, ih (by omega)]
    apply List.ext_getElem (by simp)
    intro c hc hc'
    have hlen : c < (List.replicate d.blockSize (0 : ℚ)).length := by simpa using hc
    rw [← List.getD_eq_getElem _ 0 hc, getD_commitBits _ _ _ hlen, List.getElem_replicate]
    split
    · next hin =>
      rw [getD_hardResult_setOnly, decide_eq_false]
      · rfl
      · rintro ⟨-, rfl, hck⟩
        omega
    · rw [getD_replicate_self]

theorem mods_setOnly {w : Nat} (hw : w < d.numWindows) :
    (d.elementState (d.setOnly v k) (d.layersOf syn) w).1 = List.replicate d.syndromeSize false := by
  induction w with
  | zero => rfl
  | succ w ih =>
    rw [mods_succ hw, backOut_of_zero, ih (by omega)]
    intro c _
    rw [result_setOnly hk (by omega), getD_replicate_self]

end

section
variable (hd : d.Accepted) (hss : d.straddleStartRound = false) (hse : d.straddleEndRound = true)
  (hone : d.windowSize = 1)

include hd hone

/-! ## One window for each layer -/

theorem startRound_of_one (w : Nat) : d.startRound w = w ∧ d.endRound w = w := by
  have h1 := hd.stepSize_pos
  have h2 := hd.stepSize_le
  have hstep : d.stepSize = 1 := by omega
  simp [startRound, endRound, hstep, hone]

theorem numWindows_of_one : d.numWindows = d.layout.numRounds := by
  have h1 := hd.stepSize_pos
  have h2 := hd.stepSize_le
  have hstep : d.stepSize = 1 := by omega
  have := hd.rounds
  have := hd.windows_pos
  rw [hstep, hone] at *
  omega

include hss hse

/-- A window of one layer takes in every column that has a row there or on both sides. -/
theorem selects_of_one {w c : Nat} :
    d.Selects w c ↔ d.column c ≠ [] ∧ d.firstRound c ≤ w ∧ w ≤ d.lastRound c := by
  obtain ⟨hs, he⟩ := startRound_of_one hd hone w
  rw [selects_iff, hs, he, hss, hse, selectsSpan]
  simp only [Bool.false_eq_true, false_and, false_or, true_and]
  refine and_congr_right fun _ => ?_
  omega

theorem firstColumn_mono_of_one {w : Nat} (hw : w + 1 < d.numWindows) :
    d.firstColumn w ≤ d.firstColumn (w + 1) := by
  have hw' : w < d.numWindows := by omega
  have hlt := firstColumn_lt hd hw
  obtain ⟨hne, hf, hl⟩ := (selects_of_one hd hss hse hone).mp (selects_firstColumn hd hw)
  obtain ⟨hne', hf', hl'⟩ := (selects_of_one hd hss hse hone).mp (selects_firstColumn hd hw')
  by_cases hin : d.firstRound (d.firstColumn (w + 1)) ≤ w
  · exact firstColumn_le_of_selects hd hw' hlt
      ((selects_of_one hd hss hse hone).mpr ⟨hne, hin, by omega⟩)
  · by_contra hgt
    have := firstRound_mono hd (show d.firstColumn (w + 1) ≤ d.firstColumn w by omega)
      (firstColumn_lt hd hw') hne
    omega

variable (d) in
def rowsInRound (c v : Nat) : List Bool :=
  (List.range d.syndromeSize).map fun r => decide (r ∈ d.column c ∧ d.layout.rowToRound r = v)

omit hd hone hss hse in
theorem getD_rowsInRound {c v r : Nat} (hr : r < d.syndromeSize) :
    (d.rowsInRound c v).getD r false = decide (r ∈ d.column c ∧ d.layout.rowToRound r = v) := by
  rw [rowsInRound, getD_map_range, if_pos hr]

omit hss hse in
/-- In windows of one layer, the column set in window `v` solves its rows there, and nothing is left
to solve in the others. -/
theorem solvesWindow_setOnly {v k w : Nat} (hk : d.numCommitted v ≤ k) (hkv : k < d.numColumns v)
    (hw : w < d.numWindows) :
    d.SolvesWindow (d.setOnly v k) (softSyndrome (d.rowsInRound (d.firstColumn v + k) v)) w := by
  have hs : (d.rowsInRound (d.firstColumn v + k) v).length = d.syndromeSize := by simp [rowsInRound]
  have hwindows := numWindows_of_one hd hone
  rw [solvesWindow_iff hd hs hw]
  intro i hi
  obtain ⟨hstart, -⟩ := startRound_of_one hd hone w
  have hbits := (hd.window w hw).bits i hi
  rw [(hd.window w hw).rows, hstart, hone] at hi
  rw [hstart] at hbits ⊢
  have hle := hd.fits.roundStart_le_numRows (show w + 1 ≤ d.layout.numRounds by omega)
  have hrow : d.layout.roundStart w + i < d.layout.numRows := by omega
  have hround : d.layout.rowToRound (d.layout.roundStart w + i) = w :=
    (hd.fits.rowToRound_eq_iff hrow (by omega)).mpr ⟨by omega, by omega⟩
  have hsize : d.layout.roundStart w + i < d.syndromeSize := by rwa [syndromeSize, hd.numRows]
  rw [mods_setOnly hk hw, getD_replicate_self, Bool.xor_false, getD_rowsInRound hsize, hround]
  -- in its own window the one column is set, in the others none is
  by_cases hwv : w = v
  · subst hwv
    have hsupport : ∀ x < d.numColumns w, ((d.innerMatrix w).get i x &&
        (d.hardResult (d.setOnly w k) (softSyndrome (d.rowsInRound (d.firstColumn w + k) w)) w).getD x
          false) = true → k ≤ x ∧ x < k + 1 := by
      intro x _ hset
      rw [Bool.and_eq_true, getD_hardResult_setOnly, decide_eq_true_eq] at hset
      omega
    rw [countP_range_of_support (by omega) hsupport, List.range_one, List.countP_singleton,
      getD_hardResult_setOnly, Nat.add_zero, hbits k hkv]
    by_cases hmem : d.layout.roundStart w + i ∈ d.column (d.firstColumn w + k)
    · simp [hmem, hkv]
    · simp [hmem]
  · have hzero : ((List.range (d.numColumns w)).countP fun x => (d.innerMatrix w).get i x &&
        (d.hardResult (d.setOnly v k) (softSyndrome (d.rowsInRound (d.firstColumn v + k) v)) w).getD x
          false) = 0 := by
      rw [List.countP_eq_zero]
      intro x _ hset
      rw [Bool.and_eq_true, getD_hardResult_setOnly, decide_eq_true_eq] at hset
      exact hwv hset.2.2.1
    rw [hzero]
    simp [hwv]

/-- A column that spans two layers is set by the window of the first and never committed. -/
theorem not_solvesSyndrome {m : SparseBinaryMatrix} (htwo : d.SpansTwo) (hspan : ¬ d.SpansOne) :
    ¬ d.SolvesSyndrome m := by
  simp only [SpansOne, not_forall] at hspan
  obtain ⟨c, hc, r, hr, r', hr', hne⟩ := hspan
  have hcol : d.column c ≠ [] := List.ne_nil_of_mem hr
  have hlast : d.lastRound c = d.firstRound c + 1 := by
    have h1 := round_between hd hr
    have h2 := round_between hd hr'
    have h3 : d.lastRound c ≤ d.firstRound c + 1 := htwo c hc _ (headD_mem hcol) _ (getLastD_mem hcol)
    omega
  have hrounds := lastRound_lt hd hcol
  have hwindows := numWindows_of_one hd hone
  obtain ⟨v, hv⟩ : ∃ v, v = d.firstRound c := ⟨_, rfl⟩
  have hin := ((hd.window v (by omega)).selects c hc).mp
    ((selects_of_one hd hss hse hone).mpr ⟨hcol, by omega, by omega⟩)
  have hnext : d.firstColumn (v + 1) ≤ c := firstColumn_le_of_selects hd (by omega) hc
    ((selects_of_one hd hss hse hone).mpr ⟨hcol, by omega, by omega⟩)
  have hmono := firstColumn_mono_of_one hd hss hse hone (show v + 1 < d.numWindows by omega)
  obtain ⟨k, rfl⟩ : ∃ k, c = d.firstColumn v + k := ⟨c - d.firstColumn v, by omega⟩
  have hk : d.numCommitted v ≤ k := by
    rw [numCommitted, if_pos (by omega), numToCommit_eq hmono]
    omega
  intro hsolves
  have heq := (hsolves (d.setOnly v k) (sized_setOnly v k) (d.rowsInRound (d.firstColumn v + k) v)
    (by simp [rowsInRound]) fun w hw => solvesWindow_setOnly hd hone hk (by omega) hw).2
  -- the syndrome has a bit set and the result has none
  have hset : (d.rowsInRound (d.firstColumn v + k) v).getD
      ((d.column (d.firstColumn v + k)).headD 0) false = true := by
    have hhead : (d.column (d.firstColumn v + k)).headD 0 < d.syndromeSize :=
      mem_column_lt (headD_mem hcol)
    rw [getD_rowsInRound hhead, decide_eq_true_eq]
    exact ⟨headD_mem hcol, hv.symm⟩
  have hzero : ∀ x, (convertVecSoftToHard (d.assembled (d.setOnly v k)
      (softSyndrome (d.rowsInRound (d.firstColumn v + k) v))).result).getD x false = false := by
    intro x
    rw [assembled, result_setOnly hk (le_refl _), convertVecSoftToHard, List.map_replicate,
      show decide ((1 : ℚ) / 2 ≤ 0) = false by norm_num, getD_replicate_self]
  rw [← heq, SparseBinaryMatrix.mulVec, getD_map_range] at hset
  simp only [hzero, Bool.and_false, List.countP_false] at hset
  simp at hset

end

/-! ## When the windows solve the syndrome -/

/-- With the default flags and faults of at most two neighbouring layers, solved windows solve the whole
syndrome exactly when a window has two layers or every fault lies in one. -/
theorem solvesSyndrome_iff {inputs : SlidingWindowInputs} {request : DecoderOutputRequest}
    {params : SlidingWindowParams} (hcreate : SlidingWindow.create inputs request params = .ok d)
    (hss : params.straddleStartRound = false) (hse : params.straddleEndRound = true)
    (htwo : d.SpansTwo) : d.SolvesSyndrome inputs.H ↔ 2 ≤ d.windowSize ∨ d.SpansOne := by
  obtain ⟨hd, hH, hss', hse'⟩ := create_accepted hcreate
  rw [hss] at hss'
  rw [hse] at hse'
  constructor
  · intro h
    by_contra hcond
    rw [not_or] at hcond
    have hone : d.windowSize = 1 := by
      have := hd.windowSize_pos
      omega
    exact not_solvesSyndrome hd hss' hse' hone htwo hcond.2 h
  · intro hcond
    exact solvesSyndrome_of_takesBeginning hd hH (takesBeginning hd hss' hse' htwo hcond) htwo

/-- Four layers of one detector, in windows of two that move by one. -/
def overlapping : SlidingWindowParams :=
  { windowSize := 2, numSyndromesPerRound := 1, innerDecoderName := "pymatching" }

def overlappingDecoder : SlidingWindow where
  H := fourRoundH
  layout := ⟨1, 1, 4⟩
  windowSize := 2
  stepSize := 1
  straddleStartRound := false
  straddleEndRound := true
  numWindows := 3
  firstColumns := [0, 2, 4]
  innerMatrices := [
    .ofRows 4 [[true, true, false, false], [false, true, true, true]],
    .ofRows 4 [[true, true, false, false], [false, true, true, true]],
    .ofRows 3 [[true, true, false], [false, true, true]]]
  observableFlips := none

theorem create_overlapping :
    SlidingWindow.create fourRoundInputs {} overlapping = .ok overlappingDecoder := rfl

theorem solvesSyndrome_overlapping :
    overlappingDecoder.SpansTwo ∧ overlappingDecoder.SolvesSyndrome fourRoundH :=
  have htwo : overlappingDecoder.SpansTwo := by unfold SpansTwo; decide
  ⟨htwo, (solvesSyndrome_iff create_overlapping rfl rfl htwo).mpr (.inl (by decide))⟩

/-- Windows of one layer: the first one explains its detector by the fault that spans both layers, leaves
it to the second, and the second sees nothing to explain. -/
theorem not_solvesSyndrome_twoRound :
    SlidingWindow.create twoRoundInputs {} oneRoundWindows = .ok twoRoundDecoder ∧
      twoRoundDecoder.SpansTwo ∧ ¬ twoRoundDecoder.SolvesSyndrome twoRoundH := by
  refine ⟨create_twoRound, by unfold SpansTwo; decide, fun h => ?_⟩
  have hwin : ∀ w < 2, twoRoundDecoder.SolvesWindow (twoRoundDecoder.setOnly 0 1)
      (softSyndrome [true, false]) w := by
    unfold SolvesWindow
    decide +kernel
  have heq := (h _ (sized_setOnly 0 1) [true, false] rfl hwin).2
  exact absurd heq (by decide +kernel)

end SlidingWindow

end CudaqQec
