import CudaqQec.Dem.ColumnRounds

/-!
# What an extended matrix consists of

A run of `pcm_extend_to_n_rounds` pastes three kinds of blocks: the rounds before the last one that
matches, copies of the first one that does, and the rounds from the last one on.

* `Matched`: the rounds that are like the one before them.
* `Layout`: the elements of what is returned, and its column list.
-/

namespace CudaqQec

open Checked Traps

/-! ## The rounds that match -/

/-- The rounds from `f` to `w` are the first ones whose rows are those of the round before. -/
structure Matched (pcm : Tensor) (S f w : Nat) : Prop where
  one_le : 1 ≤ f
  le : f ≤ w
  lt : w < pcm.rows / S
  matched : ∀ v, f ≤ v → v ≤ w → block pcm S v v = block pcm S (v - 1) (v - 1)
  first : ∀ v, 1 ≤ v → v < f → block pcm S v v ≠ block pcm S (v - 1) (v - 1)
  last : w + 1 < pcm.rows / S → block pcm S (w + 1) (w + 1) ≠ block pcm S w w

/-- What is known once the rounds before `w` have been read. -/
structure Scanned (pcm : Tensor) (S w : Nat) (scan : RoundScan) : Prop where
  prior : scan.priorSubPcm = block pcm S (w - 1) (w - 1)
  firstColumns : scan.firstColumns =
    (List.range w).map fun v => (touching pcm S v v).headD uint32Max
  lastColumns : scan.lastColumns = (List.range w).map fun v => (touching pcm S v v).getLastD 0
  state : (scan.firstMatch = uint32Max ∧ scan.lastMatch = 0 ∧
      ∀ v, 1 ≤ v → v < w → block pcm S v v ≠ block pcm S (v - 1) (v - 1)) ∨
    (1 ≤ scan.firstMatch ∧ scan.firstMatch ≤ scan.lastMatch ∧ scan.lastMatch + 1 = w ∧
      (∀ v, scan.firstMatch ≤ v → v < w → block pcm S v v = block pcm S (v - 1) (v - 1)) ∧
      ∀ v, 1 ≤ v → v < scan.firstMatch → block pcm S v v ≠ block pcm S (v - 1) (v - 1))

/-- What the scan of all rounds leaves, if it found a round that matches. -/
structure ScanResult (pcm : Tensor) (S : Nat) (scan : RoundScan) : Prop where
  matched : Matched pcm S scan.firstMatch scan.lastMatch
  prior : scan.priorSubPcm = block pcm S scan.lastMatch scan.lastMatch
  firstColumn : ∀ v ≤ scan.lastMatch,
    scan.firstColumns.getD v 0 = (touching pcm S v v).headD uint32Max
  lastColumn : ∀ v ≤ scan.lastMatch, scan.lastColumns.getD v 0 = (touching pcm S v v).getLastD 0

variable {pcm : Tensor} {S : Nat}

theorem block_eq_iff {v w : Nat} : block pcm S v v = block pcm S w w ↔
    (block pcm S v v).rows = (block pcm S w w).rows ∧ (block pcm S v v).cols = (block pcm S w w).cols ∧
      (block pcm S v v).data = (block pcm S w w).data := by
  constructor
  · intro h
    rw [h]
    exact ⟨rfl, rfl, rfl⟩
  · rintro ⟨hrows, hcols, hdata⟩
    have hshape : (block pcm S v v).shape = (block pcm S w w).shape := by
      change [(block pcm S v v).rows, (block pcm S v v).cols] = _
      rw [hrows, hcols]
      rfl
    exact Tensor.mk.injEq .. ▸ ⟨hshape, hdata⟩

/-- One more round is read. -/
theorem Scanned.step (hm : pcm.Binary) (hS32 : S < 2 ^ 32) {w : Nat} {ws : List Nat}
    {scan out : RoundScan} (h : Scanned pcm S w scan) (hw : 1 ≤ w) (hlt : w < uint32Max)
    (hrun : scanRounds pcm S (w :: ws) scan = .ok out) :
    (∃ scan', Scanned pcm S (w + 1) scan' ∧ scanRounds pcm S ws scan' = .ok out) ∨
      (scan.firstMatch ≠ uint32Max ∧ block pcm S w w ≠ block pcm S (w - 1) (w - 1) ∧
        out = { scan with
          firstColumns := scan.firstColumns ++ [(touching pcm S w w).headD uint32Max],
          lastColumns := scan.lastColumns ++ [(touching pcm S w w).getLastD 0] }) := by
  rw [scanRounds, bind_eq_ok] at hrun
  obtain ⟨a, hget, hrun⟩ := hrun
  obtain ⟨-, -, -, rfl⟩ := getPcmForRounds_eq_ok hm hS32 hget
  dsimp only at hrun
  have hfirstColumns : scan.firstColumns ++ [(touching pcm S w w).headD uint32Max] =
      (List.range (w + 1)).map fun v => (touching pcm S v v).headD uint32Max := by
    rw [h.firstColumns, List.range_succ, List.map_append]
    rfl
  have hlastColumns : scan.lastColumns ++ [(touching pcm S w w).getLastD 0] =
      (List.range (w + 1)).map fun v => (touching pcm S v v).getLastD 0 := by
    rw [h.lastColumns, List.range_succ, List.map_append]
    rfl
  split at hrun
  · next heq =>
    rw [h.prior, ← block_eq_iff] at heq
    left
    refine ⟨_, ⟨?_, hfirstColumns, hlastColumns, .inr ?_⟩, hrun⟩
    · rw [Nat.add_sub_cancel]
    · rcases h.state with ⟨hf, hl, hnone⟩ | ⟨hone, hle, hnext, hall, hfirst⟩
      · dsimp only
        rw [hf, hl, min_eq_right hlt.le, Nat.zero_max]
        refine ⟨hw, le_refl _, rfl, ?_, ?_⟩
        · intro v hv hv'
          obtain rfl : v = w := by omega
          exact heq
        · intro v hv hv'
          exact hnone v hv hv'
      · dsimp only
        rw [min_eq_left (by omega), max_eq_right (by omega)]
        refine ⟨hone, by omega, rfl, ?_, hfirst⟩
        intro v hv hv'
        rcases Nat.lt_succ_iff_lt_or_eq.mp hv' with hlt' | rfl
        · exact hall v hv hlt'
        · exact heq
  · next hne =>
    rw [h.prior, ← block_eq_iff] at hne
    split at hrun
    · next hfound =>
      right
      exact ⟨hfound, hne, (Except.ok.inj hrun).symm⟩
    · next hnone =>
      left
      refine ⟨_, ⟨?_, hfirstColumns, hlastColumns, .inl ?_⟩, hrun⟩
      · rw [Nat.add_sub_cancel]
      · rw [not_not] at hnone
        rcases h.state with ⟨hf, hl, hbefore⟩ | ⟨-, hle, hnext, -⟩
        · refine ⟨hf, hl, ?_⟩
          intro v hv hv'
          rcases Nat.lt_succ_iff_lt_or_eq.mp hv' with hlt' | rfl
          · exact hbefore v hv hlt'
          · exact hne
        · omega

/-- The rounds that are left are read. -/
theorem Scanned.run (hm : pcm.Binary) (hS32 : S < 2 ^ 32) {w k : Nat} {scan out : RoundScan}
    (h : Scanned pcm S w scan) (hw : 1 ≤ w) (hend : w + k = pcm.rows / S)
    (hrun : scanRounds pcm S (List.range' w k) scan = .ok out) (hfound : out.firstMatch ≠ uint32Max) :
    ScanResult pcm S out := by
  have hrows : pcm.rows / S ≤ uint32Max := by
    have := Nat.div_le_self pcm.rows S
    have := hm.rows_lt
    unfold uint32Max
    omega
  -- What has been read of the columns.
  have hread : ∀ {n v : Nat} {d : Nat} (g : Nat → Nat), v < n →
      ((List.range n).map g).getD v d = g v := by
    intro n v d g hv
    rw [getD_map_range, if_pos hv]
  induction k generalizing w scan with
  | zero =>
    cases hrun
    rcases h.state with ⟨hnone, -⟩ | ⟨hone, hle, hnext, hall, hfirst⟩
    · exact absurd hnone hfound
    · refine ⟨⟨hone, hle, by omega, fun v hv hv' => hall v hv (by omega), hfirst, ?_⟩, ?_, ?_, ?_⟩
      · intro hlast
        omega
      · rw [h.prior, ← hnext, Nat.add_sub_cancel]
      · intro v hv
        rw [h.firstColumns, hread _ (by omega)]
      · intro v hv
        rw [h.lastColumns, hread _ (by omega)]
  | succ k ih =>
    rw [List.range'_succ] at hrun
    rcases h.step hm hS32 hw (by omega) hrun with ⟨scan', hscan', hrest⟩ | ⟨hf, hne, rfl⟩
    · exact ih hscan' (by omega) (by omega) hrest
    · rcases h.state with ⟨hnone, -⟩ | ⟨hone, hle, hnext, hall, hfirst⟩
      · exact absurd hnone hf
      · have hlast : scan.lastMatch = w - 1 := by omega
        refine ⟨⟨hone, hle, by dsimp only; omega, fun v hv hv' => hall v hv ?_, hfirst, ?_⟩, ?_, ?_, ?_⟩
        · dsimp only at hv'
          omega
        · intro _
          dsimp only
          rw [hnext, hlast]
          exact hne
        · dsimp only
          rw [h.prior, hlast]
        · intro v hv
          dsimp only at hv ⊢
          rw [h.firstColumns, getD_append_ite, List.length_map, List.length_range, if_pos (by omega),
            hread _ (by omega)]
        · intro v hv
          dsimp only at hv ⊢
          rw [h.lastColumns, getD_append_ite, List.length_map, List.length_range, if_pos (by omega),
            hread _ (by omega)]

/-! ## Pasting -/

/-- `out` is `big` with `sub` pasted over it. -/
structure Pasted (sub big out : Tensor) (row col : Nat) : Prop where
  rows : out.rows = big.rows
  cols : out.cols = big.cols
  entry : ∀ r < big.rows, ∀ c < big.cols, out.entry r c =
    if row ≤ r ∧ r < row + sub.rows ∧ col ≤ c ∧ c < col + sub.cols then sub.entry (r - row) (c - col)
    else big.entry r c

/-- Rows are pasted one by one. -/
theorem entry_copyRows (sub big : Tensor) (row col n : Nat) (h32 : row + n ≤ 2 ^ 32) :
    ∃ out, (List.range n).foldl (fun b r => b.copyRow (u32 (row + r)) col sub r) big = out ∧
      out.rows = big.rows ∧ out.cols = big.cols ∧ ∀ r < big.rows, ∀ c < big.cols, out.entry r c =
        if row ≤ r ∧ r < row + n ∧ col ≤ c ∧ c < col + sub.cols then sub.entry (r - row) (c - col)
        else big.entry r c := by
  induction n with
  | zero =>
    refine ⟨big, rfl, rfl, rfl, ?_⟩
    intro r _ c _
    rw [if_neg (by omega)]
  | succ n ih =>
    obtain ⟨mid, hmid, hrows, hcols, hentry⟩ := ih (by omega)
    rw [List.range_succ, List.foldl_append, hmid]
    refine ⟨_, rfl, hrows, hcols, ?_⟩
    intro r hr c hc
    rw [List.foldl_cons, List.foldl_nil, Tensor.copyRow,
      Tensor.entry_ofEntries _ _ _ (by omega) (by omega), u32_of_lt (by omega), hentry r hr c hc]
    by_cases hlast : r = row + n ∧ col ≤ c ∧ c < col + sub.cols
    · rw [if_pos hlast, if_pos (by omega), hlast.1, Nat.add_sub_cancel_left]
    · rw [if_neg hlast]
      by_cases hin : row ≤ r ∧ r < row + n ∧ col ≤ c ∧ c < col + sub.cols
      · rw [if_pos hin, if_pos (by omega)]
      · rw [if_neg hin, if_neg (by omega)]

theorem copySubPcmIntoBigPcm_eq_ok {sub big out : Tensor} {row col : Nat}
    (h32 : row + sub.rows ≤ 2 ^ 32) (h : copySubPcmIntoBigPcm sub big row col = .ok out) :
    row + sub.rows ≤ big.rows ∧ col + sub.cols ≤ big.cols ∧ (0 < sub.rows → 0 < sub.cols) ∧
      Pasted sub big out row col := by
  simp only [copySubPcmIntoBigPcm, bind_eq_ok, assert_eq_ok, throws_eq_ok, throwIf_eq_ok] at h
  obtain ⟨_, hrow, _, hcol, _, hsome, hout⟩ := h
  obtain ⟨out', hfold, hrows, hcols, hentry⟩ := entry_copyRows sub big row col sub.rows h32
  rw [hfold] at hout
  cases hout
  refine ⟨hrow, hcol, ?_, ⟨hrows, hcols, hentry⟩⟩
  intro hpos
  by_contra hnone
  exact hsome ⟨hpos, by omega⟩

theorem entry_zeros {rows cols r c : Nat} (hr : r < (Tensor.zeros rows cols).rows)
    (hc : c < (Tensor.zeros rows cols).cols) : (Tensor.zeros rows cols).entry r c = 0 :=
  Tensor.entry_ofEntries _ _ _ hr hc

theorem length_columnsFrom (a b : Nat) : (columnsFrom a b).length = b + 1 - a := by
  rw [columnsFrom, List.length_range']

/-- What a block shows in a row of the matrix it is pasted into, from column `start` on. -/
def shown (sub : Tensor) (start r c : Nat) : UInt8 :=
  if start ≤ c ∧ c < start + sub.cols then sub.entry r (c - start) else 0

/-- Copies of a round are pasted below each other, each as far to the right of the last as columns are
inserted. -/
theorem insertRounds_eq_ok {ov ins : Nat} {sub : Tensor} {columns : List Nat} {n : Nat}
    {x out : Extension} (hsub : sub.rows = S) (h32 : x.numRowsPopulated + n * S < 2 ^ 32)
    (hcols : x.numColsPopulated < 2 ^ 32) (hpos : 0 < S)
    (h : insertRounds S ov ins sub columns n x = .ok out) :
    out.newPcm.rows = x.newPcm.rows ∧ out.newPcm.cols = x.newPcm.cols ∧
      out.columnList = x.columnList ++ (List.replicate n columns).flatten ∧
      out.numRowsPopulated = x.numRowsPopulated + n * S ∧ (0 < n → 0 < sub.cols) ∧
      (∀ r < x.newPcm.rows, ∀ c < x.newPcm.cols,
        r < x.numRowsPopulated ∨ x.numRowsPopulated + n * S ≤ r →
          out.newPcm.entry r c = x.newPcm.entry r c) ∧
      ∀ k < n, ∀ i < S, ∀ c < x.newPcm.cols,
        (∀ r < x.newPcm.rows, x.numRowsPopulated ≤ r → x.newPcm.entry r c = 0) →
          out.newPcm.entry (x.numRowsPopulated + k * S + i) c =
            shown sub (sub32 (u32 (x.numColsPopulated + k * ins)) ov) i c := by
  induction n generalizing x with
  | zero =>
    cases h
    refine ⟨rfl, rfl, by simp, by omega, fun h => absurd h (Nat.lt_irrefl 0), fun _ _ _ _ _ => rfl, ?_⟩
    intro k hk
    exact absurd hk (Nat.not_lt_zero k)
  | succ n ih =>
    rw [Nat.succ_mul] at h32 ⊢
    rw [insertRounds, bind_eq_ok] at h
    obtain ⟨y, hy, hrest⟩ := h
    rw [insertRound, bind_eq_ok] at hy
    obtain ⟨newPcm, hcopy, hy⟩ := hy
    cases hy
    obtain ⟨hroom, -, hsome, hpasted⟩ := copySubPcmIntoBigPcm_eq_ok (by omega) hcopy
    have hnext : u32 (x.numRowsPopulated + S) = x.numRowsPopulated + S := u32_of_lt (by omega)
    obtain ⟨hrows, hcols', hlist, hpop, -, hframe, hcopies⟩ := ih (by dsimp only; omega) (u32_lt _) hrest
    dsimp only at hrows hcols' hlist hpop hframe hcopies
    rw [hnext] at hpop hframe hcopies
    rw [hpasted.rows] at hrows hframe hcopies
    rw [hpasted.cols] at hcols' hframe hcopies
    refine ⟨hrows, hcols', ?_, by omega, fun _ => hsome (hsub ▸ hpos), ?_, ?_⟩
    · rw [hlist, List.replicate_succ, List.flatten_cons, List.append_assoc]
    · intro r hr c hc hout
      rw [hframe r hr c hc (by omega), hpasted.entry r hr c hc, if_neg (by omega)]
    · intro k hk i hi c hc hzero
      cases k with
      | zero =>
        have hrow : x.numRowsPopulated + i < x.newPcm.rows := by omega
        rw [Nat.zero_mul, Nat.zero_mul, Nat.add_zero, Nat.add_zero, u32_of_lt hcols,
          hframe _ hrow c hc (.inl (by omega)), hpasted.entry _ hrow c hc,
          hzero _ hrow (Nat.le_add_right _ _), Nat.add_sub_cancel_left, shown]
        have hin : x.numRowsPopulated ≤ x.numRowsPopulated + i ∧
            x.numRowsPopulated + i < x.numRowsPopulated + sub.rows := by omega
        simp only [hin, true_and]
      | succ k =>
        have hsplit : x.numRowsPopulated + (k + 1) * S + i = x.numRowsPopulated + S + k * S + i := by
          rw [Nat.succ_mul]
          omega
        have hstart : u32 (u32 (x.numColsPopulated + ins) + k * ins) =
            u32 (x.numColsPopulated + (k + 1) * ins) := by
          rw [u32_add, Nat.succ_mul]
          congr 1
          omega
        rw [hsplit, hcopies k (by omega) i hi c hc, hstart]
        intro r hr hle
        rw [hpasted.entry r hr c hc, if_neg (by omega)]
        exact hzero r hr (by omega)

/-! ## The extended matrix -/

/-- The steps of a run that returns. -/
structure ExtendRun (pcm : Tensor) (S n : Nat) (scan : RoundScan) (begun : Tensor) (x : Extension)
    (out : Tensor × List Nat) : Prop where
  result : ScanResult pcm S scan
  begins : copySubPcmIntoBigPcm (block pcm S 0 (scan.lastMatch - 1))
    (.zeros (pcm.rows + u32 (S * u32 (n - pcm.rows / S)))
      (u32 (u32 (block pcm S 0 (pcm.rows / S - 1)).cols +
        u32 (scan.numInserted * u32 (n - pcm.rows / S))))) 0 0 = .ok begun
  inserts : insertRounds S scan.numOverlap scan.numInserted
    (block pcm S scan.firstMatch scan.firstMatch)
    (columnsFrom
      (u32 ((touching pcm S scan.firstMatch scan.firstMatch).headD uint32Max + scan.numOverlap))
      ((touching pcm S scan.firstMatch scan.firstMatch).getLastD 0))
    (u32 (n - pcm.rows / S))
    ⟨begun, columnsFrom 0 ((touching pcm S 0 (scan.lastMatch - 1)).getLastD 0),
      u32 (block pcm S 0 (scan.lastMatch - 1)).rows,
      u32 (block pcm S 0 (scan.lastMatch - 1)).cols⟩ = .ok x
  ends : copySubPcmIntoBigPcm (block pcm S scan.lastMatch (pcm.rows / S - 1)) x.newPcm
    x.numRowsPopulated (u32 (sizeT ((x.newPcm.cols : Int) - ((pcm.cols : Int) -
      (touching pcm S scan.lastMatch (pcm.rows / S - 1)).headD uint32Max)))) = .ok out.1
  list : out.2 = x.columnList ++ columnsFrom
    (u32 ((touching pcm S scan.lastMatch (pcm.rows / S - 1)).headD uint32Max + scan.numOverlap))
    ((touching pcm S scan.lastMatch (pcm.rows / S - 1)).getLastD 0)
  length : out.2.length = out.1.cols

theorem extendRun_of_returned (hm : pcm.Binary) {n : Nat} {out : Tensor × List Nat}
    (h : pcmExtendToNRounds pcm S n = .ok out) :
    0 < S ∧ S < 2 ^ 32 ∧ pcm.rows / S ≤ n ∧ orderOfDense pcm S = List.range pcm.cols ∧
      ∃ scan begun x, ExtendRun pcm S n scan begun x out := by
  have hrows32 := hm.rows_lt
  rw [pcmExtendToNRounds, bind_eq_ok] at h
  obtain ⟨_, hdiv, h⟩ := h
  obtain ⟨hS, rfl⟩ := div_eq_ok.mp hdiv
  obtain ⟨_, hn, h⟩ := bind_eq_ok.mp h
  have hn : pcm.rows / S ≤ n := not_lt.mp (throwIf_eq_ok.mp (throws_eq_ok.mp hn))
  obtain ⟨sorted, hsorted, h⟩ := bind_eq_ok.mp h
  obtain ⟨_, htrue, h⟩ := bind_eq_ok.mp h
  have htrue : sorted = true := by simpa using throwIf_eq_ok.mp (throws_eq_ok.mp htrue)
  rw [throws_eq_ok, htrue] at hsorted
  dsimp only at h
  obtain ⟨whole, hwhole, h⟩ := bind_eq_ok.mp h
  rw [throws_eq_ok] at hwhole
  obtain ⟨hS32, -, hlast, hwhole⟩ := getPcmForRounds_eq_ok hm (u32_lt S) hwhole
  -- There is a whole round, so its rows fit.
  have hsmall : S < 2 ^ 32 ∧ 1 ≤ pcm.rows / S := by
    have hle := Nat.div_le_self pcm.rows (u32 S)
    have hone : 1 ≤ pcm.rows / S := by
      by_contra hnone
      have h0 : pcm.rows / S = 0 := Nat.lt_one_iff.mp (not_le.mp hnone)
      have hmax : u32 (sizeT (((0 : Nat) : Int) - 1)) = 2 ^ 32 - 1 := by decide
      rw [h0, hmax] at hlast
      omega
    have hmul := Nat.div_mul_le_self pcm.rows S
    have := Nat.mul_le_mul_right S hone
    omega
  obtain ⟨hS32', hone⟩ := hsmall
  have hS' : u32 S = S := u32_of_lt hS32'
  have hend : u32 (sizeT (((pcm.rows / S : Nat) : Int) - 1)) = pcm.rows / S - 1 := by
    have hcast : (((pcm.rows / S : Nat) : Int) - 1) = ((pcm.rows / S - 1 : Nat) : Int) := by omega
    have hle := Nat.div_le_self pcm.rows S
    rw [hcast, sizeT_natCast, u32_of_lt (by omega)]
  simp only [hS', hend] at hsorted hwhole h
  have hsorted := ((pcmIsSortedOfDense_iff hm.rank).mp hsorted).2
  obtain ⟨first, hfirst, h⟩ := bind_eq_ok.mp h
  obtain ⟨-, -, -, rfl⟩ := getPcmForRounds_eq_ok hm hS32' (throws_eq_ok.mp hfirst)
  dsimp only at h
  obtain ⟨scan, hscan, h⟩ := bind_eq_ok.mp h
  obtain ⟨_, hfound, h⟩ := bind_eq_ok.mp h
  have hresult : ScanResult pcm S scan := by
    refine Scanned.run hm hS32' ⟨rfl, rfl, rfl, .inl ⟨rfl, rfl, ?_⟩⟩ (le_refl 1) (by omega)
      (throws_eq_ok.mp hscan) (throwIf_eq_ok.mp (throws_eq_ok.mp hfound))
    intro v hv hv'
    omega
  clear hscan hfound hfirst
  subst hwhole
  obtain ⟨firstCopied, hget, h⟩ := bind_eq_ok.mp h
  obtain ⟨-, -, -, rfl⟩ := getPcmForRounds_eq_ok hm hS32' (throws_eq_ok.mp hget)
  dsimp only at h
  obtain ⟨begun, hbegun, h⟩ := bind_eq_ok.mp h
  obtain ⟨inserted, hget', h⟩ := bind_eq_ok.mp h
  obtain ⟨-, -, -, rfl⟩ := getPcmForRounds_eq_ok hm hS32' (throws_eq_ok.mp hget')
  dsimp only at h
  obtain ⟨x, hx, h⟩ := bind_eq_ok.mp h
  obtain ⟨rest, hget'', h⟩ := bind_eq_ok.mp h
  obtain ⟨-, -, -, rfl⟩ := getPcmForRounds_eq_ok hm hS32' (throws_eq_ok.mp hget'')
  dsimp only at h
  obtain ⟨new, hnew, h⟩ := bind_eq_ok.mp h
  obtain ⟨_, hlen, h⟩ := bind_eq_ok.mp h
  have hlen := throwIf_eq_ok.mp (throws_eq_ok.mp hlen)
  rw [not_not] at hlen
  cases h
  exact ⟨hS, hS32', hn, hsorted, scan, begun, x, hresult, hbegun, hx, hnew, rfl, hlen⟩

/-- What is returned: the rounds above round `w`, copies of round `f`, and the rounds from `w` on, each
block at a column of its own; how wide it is, and what columns it is made of. -/
structure Layout (pcm : Tensor) (S n f w ov ins : Nat) (out : Tensor × List Nat) : Prop where
  overlap : 0 < n - pcm.rows / S → ov = sub32 (u32 ((touching pcm S (f - 1) (f - 1)).getLastD 0 + 1))
    ((touching pcm S f f).headD 0)
  inserted : ins = u32 (sizeT (((touching pcm S w w).length : Int) - ov))
  begun : touching pcm S 0 (w - 1) ≠ []
  copied : 0 < n - pcm.rows / S → touching pcm S f f ≠ []
  ended : touching pcm S w (pcm.rows / S - 1) ≠ []
  rows : out.1.rows = pcm.rows + S * (n - pcm.rows / S)
  cols : out.1.cols = u32 ((touching pcm S 0 (pcm.rows / S - 1)).length + ins * (n - pcm.rows / S))
  length : out.2.length = out.1.cols
  list : out.2 = columnsFrom 0 ((touching pcm S 0 (w - 1)).getLastD 0) ++
    (List.replicate (n - pcm.rows / S) (columnsFrom (u32 ((touching pcm S f f).headD uint32Max + ov))
      ((touching pcm S f f).getLastD 0))).flatten ++
    columnsFrom (u32 ((touching pcm S w (pcm.rows / S - 1)).headD 0 + ov))
      ((touching pcm S w (pcm.rows / S - 1)).getLastD 0)
  above : ∀ v < w, ∀ i < S, ∀ c < out.1.cols,
    out.1.entry (v * S + i) c = shown (block pcm S 0 (w - 1)) 0 (v * S + i) c
  copies : ∀ k < n - pcm.rows / S, ∀ i < S, ∀ c < out.1.cols,
    out.1.entry ((w + k) * S + i) c =
      shown (block pcm S f f) (sub32 (u32 (u32 (touching pcm S 0 (w - 1)).length + k * ins)) ov) i c
  below : ∀ v, w + v < pcm.rows / S → ∀ i < S, ∀ c < out.1.cols,
    out.1.entry ((w + (n - pcm.rows / S) + v) * S + i) c =
      shown (block pcm S w (pcm.rows / S - 1)) (u32 (sizeT ((out.1.cols : Int) -
        ((pcm.cols : Int) - (touching pcm S w (pcm.rows / S - 1)).headD 0)))) (v * S + i) c
  rest : ∀ r < out.1.rows, n * S ≤ r → ∀ c < out.1.cols, out.1.entry r c = 0

/-- The rounds that are added, and the rows up to them, fit. -/
theorem rows_fit {n w : Nat} (hS : 0 < S) (hw : w < pcm.rows / S) (hn : pcm.rows / S ≤ n)
    (hfit : n * S ≤ 2 ^ 32) :
    u32 (n - pcm.rows / S) = n - pcm.rows / S ∧ u32 (w * S) = w * S ∧
      w * S + (n - pcm.rows / S) * S < 2 ^ 32 := by
  have hle : n ≤ n * S := Nat.le_mul_of_pos_right n hS
  have hsum : w * S + (n - pcm.rows / S) * S + S ≤ n * S := by
    rw [← Nat.add_mul, ← Nat.succ_mul]
    exact Nat.mul_le_mul_right S (by omega)
  exact ⟨u32_of_lt (by omega), u32_of_lt (by omega), by omega⟩

theorem ne_nil_of_cols_block {p q : Nat} (h : 0 < (block pcm S p q).cols) : touching pcm S p q ≠ [] := by
  rw [cols_block] at h
  exact List.ne_nil_of_length_pos h

theorem ExtendRun.layout (hS : 0 < S) {n : Nat} {scan : RoundScan} {begun : Tensor} {x : Extension}
    {out : Tensor × List Nat} (h : ExtendRun pcm S n scan begun x out) (hn : pcm.rows / S ≤ n)
    (hfit : n * S ≤ 2 ^ 32) :
    Layout pcm S n scan.firstMatch scan.lastMatch scan.numOverlap scan.numInserted out := by
  have hmatch := h.result.matched
  have hone := hmatch.one_le
  have hle := hmatch.le
  have hlt := hmatch.lt
  obtain ⟨hadded, hpop, hroom⟩ := rows_fit hS hlt hn hfit
  have hrounds : pcm.rows / S * S ≤ pcm.rows := Nat.div_mul_le_self pcm.rows S
  have hbeginRows : (block pcm S 0 (scan.lastMatch - 1)).rows = scan.lastMatch * S := by
    rw [rows_block, Nat.sub_zero, Nat.sub_add_cancel (by omega)]
  have hcopyRows : (block pcm S scan.firstMatch scan.firstMatch).rows = S := by
    rw [rows_block, Nat.add_sub_cancel_left, Nat.one_mul]
  have hendRows : (block pcm S scan.lastMatch (pcm.rows / S - 1)).rows =
      (pcm.rows / S - scan.lastMatch) * S := by
    rw [rows_block, Nat.sub_add_cancel (by omega)]
  have hsum : scan.lastMatch * S + (n - pcm.rows / S) * S + (pcm.rows / S - scan.lastMatch) * S =
      n * S := by
    rw [← Nat.add_mul, ← Nat.add_mul]
    congr 1
    omega
  have hrowsIn : ∀ {v m : Nat}, v < m → v * S + S ≤ m * S := by
    intro v m hv
    rw [← Nat.succ_mul]
    exact Nat.mul_le_mul_right S hv
  -- The three parts.
  obtain ⟨-, -, hbegun, hpasted⟩ := copySubPcmIntoBigPcm_eq_ok (by rw [hbeginRows]; omega) h.begins
  have hinserts := h.inserts
  rw [hadded, hbeginRows, hpop] at hinserts
  obtain ⟨hxrows, hxcols, hxlist, hxpop, hcopied, hxframe, hxcopies⟩ :=
    insertRounds_eq_ok hcopyRows hroom (u32_lt _) hS hinserts
  dsimp only at hxrows hxcols hxlist hxpop hxframe hxcopies
  have hends := h.ends
  rw [hxpop] at hends
  obtain ⟨-, -, hended, hout⟩ := copySubPcmIntoBigPcm_eq_ok (by rw [hendRows, hsum]; exact hfit) hends
  have hendedNe := ne_nil_of_cols_block (hended (by rw [hendRows]; exact Nat.mul_pos (by omega) hS))
  rw [headD_of_ne hendedNe] at hout
  have hrows : begun.rows = pcm.rows + S * (n - pcm.rows / S) := by
    rw [hpasted.rows]
    show pcm.rows + u32 (S * u32 (n - pcm.rows / S)) = _
    rw [hadded, u32_of_lt (by rw [Nat.mul_comm]; omega)]
  have hrows' : out.1.rows = begun.rows := hout.rows.trans hxrows
  have hcols' : out.1.cols = begun.cols := hout.cols.trans hxcols
  have hentry : ∀ r < begun.rows, ∀ c < begun.cols, begun.entry r c =
      if r < scan.lastMatch * S then shown (block pcm S 0 (scan.lastMatch - 1)) 0 r c else 0 := by
    intro r hr c hc
    rw [hpasted.rows] at hr
    rw [hpasted.cols] at hc
    rw [hpasted.entry r hr c hc, entry_zeros hr hc, hbeginRows, shown]
    by_cases hrow : r < scan.lastMatch * S
    · simp only [Nat.zero_le, hrow, Nat.zero_add, true_and, if_true, Nat.sub_zero]
    · rw [if_neg hrow, if_neg (by omega)]
  refine ⟨?_, ?_, ne_nil_of_cols_block (hbegun (by rw [hbeginRows]; exact Nat.mul_pos (by omega) hS)),
    fun hd => ne_nil_of_cols_block (hcopied hd), hendedNe, hrows'.trans hrows, ?_, h.length, ?_, ?_, ?_, ?_,
    ?_⟩
  · intro hd
    have hne := ne_nil_of_cols_block (hcopied hd)
    rw [RoundScan.numOverlap, h.result.lastColumn _ (by omega), h.result.firstColumn _ hle,
      headD_of_ne hne]
  · rw [RoundScan.numInserted, h.result.prior, cols_block]
  · rw [hcols', hpasted.cols]
    show u32 (u32 (block pcm S 0 (pcm.rows / S - 1)).cols +
      u32 (scan.numInserted * u32 (n - pcm.rows / S))) = _
    rw [hadded, u32_add, u32_add', cols_block]
  · rw [h.list, hxlist, headD_of_ne hendedNe]
  · -- Above, only the first part was pasted.
    intro v hv i hi c hc
    have hrow := hrowsIn hv
    have hrow' := hrowsIn hlt
    rw [hout.entry _ (by omega) c (by omega), if_neg (by omega),
      hxframe _ (by omega) c (by omega) (.inl (by omega)), hentry _ (by omega) c (by omega),
      if_pos (by omega)]
  · -- The copies were pasted over nothing.
    intro k hk i hi c hc
    have hrow := hrowsIn hk
    have hrow' := hrowsIn hlt
    have hsplit : (scan.lastMatch + k) * S + i = scan.lastMatch * S + k * S + i := by
      rw [Nat.add_mul]
    rw [hsplit, hout.entry _ (by rw [hxrows, hrows, Nat.mul_comm S]; omega) c (by omega),
      if_neg (by omega), hxcopies k hk i hi c (by omega), cols_block]
    intro r hr hle'
    rw [hentry r hr c (by omega), if_neg (by omega)]
  · -- So were the rounds below them.
    intro v hv i hi c hc
    have hrow := hrowsIn (show v < pcm.rows / S - scan.lastMatch by omega)
    have hsplit : (scan.lastMatch + (n - pcm.rows / S) + v) * S + i =
        scan.lastMatch * S + (n - pcm.rows / S) * S + (v * S + i) := by
      rw [Nat.add_mul, Nat.add_mul, Nat.add_assoc]
    have hr : scan.lastMatch * S + (n - pcm.rows / S) * S + (v * S + i) < begun.rows := by
      rw [hrows, Nat.mul_comm S]
      have : (pcm.rows / S - scan.lastMatch) * S + scan.lastMatch * S = pcm.rows / S * S := by
        rw [← Nat.add_mul, Nat.sub_add_cancel hlt.le]
      omega
    rw [hsplit, hout.entry _ (by omega) c (by omega), hendRows, Nat.add_sub_cancel_left,
      hxframe _ (by omega) c (by omega) (.inr (by omega)), hentry _ hr c (by omega), hxcols, ← hcols']
    have hin : scan.lastMatch * S + (n - pcm.rows / S) * S ≤
          scan.lastMatch * S + (n - pcm.rows / S) * S + (v * S + i) ∧
        scan.lastMatch * S + (n - pcm.rows / S) * S + (v * S + i) <
          scan.lastMatch * S + (n - pcm.rows / S) * S + (pcm.rows / S - scan.lastMatch) * S := by omega
    simp only [hin, true_and]
    rw [if_neg (by omega : ¬ scan.lastMatch * S + (n - pcm.rows / S) * S + (v * S + i) <
      scan.lastMatch * S), shown]
  · intro r hr hle' c hc
    rw [hout.entry r (by omega) c (by omega), hendRows, if_neg (by omega),
      hxframe r (by omega) c (by omega) (.inr (by omega)), hentry r (by omega) c (by omega),
      if_neg (by omega)]

end CudaqQec
