import CudaqQec.Codes.SurfaceStabilizers
import CudaqQec.Codes.PauliWords
import CudaqQec.Lib.Lists
import Mathlib.Tactic.IntervalCases

/-!
# The CNOT schedules of the surface code

Each stabilizer touches its data qubits in the order of its type, and the rows of a schedule are sorted by
the first qubit, as those of the parity matrix are.

* `buildCnotSchedule_eq_ok`: a schedule has the rows of its sites, in the order of their first qubits.
* `toParityMatrix_x`, `toParityMatrix_z`: so has the parity matrix.
-/

namespace CudaqQec.SurfaceCode

open Checked PauliWords

/-! ## Words -/

def wordOf (p : Pauli) (n : Nat) (elems : List Nat) : List Pauli :=
  elems.foldl (fun stab elem => stab.set elem p) (List.replicate n .i)

section
variable {Term : Type} (terms : SpinOpTerms Term)

def getSpinOpStabilizers (g : StabilizerGrid) : List Term :=
  (g.xStabilizers.map fun stab => terms.fromWord (wordOf .x g.dataCoords.length stab)) ++
    g.zStabilizers.map fun stab => terms.fromWord (wordOf .z g.dataCoords.length stab)

def xLogicalOnTopRow (orientation : ScOrientation) : Bool :=
  decide (orientation = .xv) || decide (orientation = .zh)

/-- `get_spin_op_observables`: first X, then Z. -/
def getSpinOpObservables (g : StabilizerGrid) : List Term :=
  let n := g.dataCoords.length
  let topRow := List.range g.distance
  let leftCol := (List.range n).filter fun i => i % g.distance = 0
  if xLogicalOnTopRow g.orientation then
    [terms.fromWord (wordOf .x n topRow), terms.fromWord (wordOf .z n leftCol)]
  else [terms.fromWord (wordOf .x n leftCol), terms.fromWord (wordOf .z n topRow)]

end

/-! ## Schedules -/

def rowMajorOrder : List Vec2d := [⟨-1, -1⟩, ⟨-1, 0⟩, ⟨0, -1⟩, ⟨0, 0⟩]

def colMajorOrder : List Vec2d := [⟨-1, -1⟩, ⟨0, -1⟩, ⟨-1, 0⟩, ⟨0, 0⟩]

def orderOf (useColMajorOrder : Bool) : List Vec2d := if useColMajorOrder then colMajorOrder else rowMajorOrder

/-- The row of a stabilizer: at each data qubit the step at which it is touched. -/
def scheduleRow (order : List Vec2d) (dataIndices : List (Vec2d × Nat)) (numData : Nat) (c : Vec2d) :
    List UInt8 :=
  order.zipIdx.foldl (fun row offset =>
    match dataIndices.lookup (c.add offset.1) with
    | some i => row.set i (offset.2 + 1).toUInt8
    | none => row) (List.replicate numData 0)

/-- `build_cnot_schedule`, as the rows of the tensor. -/
def buildCnotSchedule (stabCoords : List Vec2d) (dataIndices : List (Vec2d × Nat)) (numData : Nat)
    (useColMajorOrder : Bool) : Except Error (List (List UInt8)) := do
  let rows := stabCoords.map (scheduleRow (orderOf useColMajorOrder) dataIndices numData)
  let keyed := (rows.zipIdx.map fun row => (row.1.findIdx fun v => decide (v ≠ 0), row.2)).insertionSort
    fun a b => toLex a ≤ toLex b
  throwIf (¬ keyed.IsChain fun previous current => current.1 ≠ previous.1)
    (.runtimeError ("surface-code CNOT schedule: two same-type stabilizers share their " ++
      "first supported data qubit, so the schedule rows cannot be aligned with the parity-matrix rows."))
  return keyed.map fun row => rows.getD row.2 []

/-- `get_cnot_schedule_x`. The number of data qubits is a product in 32 bits. -/
def getCnotScheduleX (g : StabilizerGrid) : Except Error (List (List UInt8)) :=
  buildCnotSchedule g.xStabCoords g.dataIndices (u32 (g.distance * g.distance)) (xLogicalOnTopRow g.orientation)

def getCnotScheduleZ (g : StabilizerGrid) : Except Error (List (List UInt8)) :=
  buildCnotSchedule g.zStabCoords g.dataIndices (u32 (g.distance * g.distance)) (!xLogicalOnTopRow g.orientation)

/-! ## Supports -/

def wordSupport (p : Pauli) (word : List Pauli) : List Nat :=
  (List.range word.length).filter fun i => decide (word.getD i .i = p)

def rowSupport (row : List UInt8) : List Nat :=
  (List.range row.length).filter fun i => decide (row.getD i 0 ≠ 0)

variable {d : Nat} {orientation : ScOrientation} {c c' q : Vec2d}

/-- Ascending lists of the same elements are the same. -/
theorem eq_of_pairwise_lt_of_mem_iff {l m : List Nat} (hl : l.Pairwise (· < ·)) (hm : m.Pairwise (· < ·))
    (h : ∀ i, i ∈ l ↔ i ∈ m) : l = m := by
  have hperm : l.Perm m := (List.perm_ext_iff_of_nodup (hl.imp ne_of_lt) (hm.imp ne_of_lt)).mpr h
  exact hperm.eq_of_pairwise (fun _ _ _ _ hab hba => absurd hba hab.asymm) hl hm

theorem filter_range_eq {n : Nat} {p : Nat → Bool} {l : List Nat} (hl : l.Pairwise (· < ·))
    (hlt : ∀ i ∈ l, i < n) (h : ∀ i < n, p i = true ↔ i ∈ l) : (List.range n).filter p = l := by
  apply eq_of_pairwise_lt_of_mem_iff (List.pairwise_lt_range.filter p) hl
  intro i
  rw [List.mem_filter, List.mem_range]
  exact ⟨fun ⟨hi, hp⟩ => (h i hi).mp hp, fun hi => ⟨hlt i hi, (h i (hlt i hi)).mpr hi⟩⟩

theorem foldl_set {p : Pauli} (elems : List Nat) (stab : List Pauli) :
    (elems.foldl (fun stab elem => stab.set elem p) stab).length = stab.length ∧
      ∀ i < stab.length, (elems.foldl (fun stab elem => stab.set elem p) stab).getD i .i =
        if i ∈ elems then p else stab.getD i .i := by
  induction elems generalizing stab with
  | nil => simp
  | cons elem elems ih =>
    obtain ⟨hlength, hget⟩ := ih (stab.set elem p)
    rw [List.length_set] at hlength hget
    refine ⟨hlength, fun i hi => ?_⟩
    rw [List.foldl_cons, hget i hi]
    by_cases hmem : i ∈ elems
    · simp [hmem]
    · by_cases heq : elem = i
      · subst heq
        simp [hmem, List.getD_eq_getElem?_getD, hi]
      · simp [hmem, heq, Ne.symm heq, List.getD_eq_getElem?_getD]

theorem length_wordOf (p : Pauli) (n : Nat) (elems : List Nat) : (wordOf p n elems).length = n := by
  rw [wordOf, (foldl_set elems _).1, List.length_replicate]

theorem getD_wordOf (p : Pauli) {n i : Nat} (elems : List Nat) (hi : i < n) :
    (wordOf p n elems).getD i .i = if i ∈ elems then p else .i := by
  rw [wordOf, (foldl_set elems _).2 i (by rwa [List.length_replicate]), getD_replicate_self]

theorem mem_wordOf {p r : Pauli} {n : Nat} {elems : List Nat} (hr : r ∈ wordOf p n elems) : r = .i ∨ r = p := by
  obtain ⟨i, hi, rfl⟩ := List.mem_iff_getElem.mp hr
  have hget := getD_wordOf p elems (hi.trans_eq (length_wordOf _ _ _))
  rw [List.getD_eq_getElem?_getD, List.getElem?_eq_getElem hi, Option.getD_some] at hget
  rw [hget]
  split
  · exact .inr rfl
  · exact .inl rfl

theorem wordSupport_wordOf {p : Pauli} (hp : p ≠ .i) {n : Nat} {elems : List Nat} (helems : elems.Pairwise (· < ·))
    (hlt : ∀ i ∈ elems, i < n) : wordSupport p (wordOf p n elems) = elems := by
  rw [wordSupport, length_wordOf]
  apply filter_range_eq helems hlt
  intro i hi
  rw [getD_wordOf p elems hi, decide_eq_true_eq]
  split
  · next h => exact iff_of_true rfl h
  · next h => exact iff_of_false hp.symm h

/-- And no other. -/
theorem wordSupport_wordOf_ne {p p' : Pauli} (hp : p' ≠ .i) (hne : p' ≠ p) (n : Nat) (elems : List Nat) :
    wordSupport p' (wordOf p n elems) = [] := by
  rw [wordSupport, length_wordOf, List.filter_eq_nil_iff]
  intro i hi
  rw [getD_wordOf p elems (List.mem_range.mp hi), decide_eq_true_eq]
  split
  · exact hne.symm
  · exact hp.symm

theorem rowSupport_parityRow (p : Pauli) {n : Nat} {word : List Pauli} (hn : word.length = n) :
    rowSupport (parityRow p n word) = wordSupport p word := by
  rw [rowSupport, wordSupport, parityRow, List.length_map, List.length_range, hn]
  refine List.filter_congr fun i hi => ?_
  rw [List.getD_eq_getElem?_getD, List.getElem?_map, List.getElem?_range (List.mem_range.mp hi)]
  by_cases h : word.getD i .i = p <;> simp

/-! ## Rows -/

theorem perm_orderOf (useColMajorOrder : Bool) : (orderOf useColMajorOrder).Perm offsets := by
  cases useColMajorOrder <;> decide

theorem mem_map_orderOf (useColMajorOrder : Bool) :
    q ∈ (orderOf useColMajorOrder).map c.add ↔ Touches c q := by
  rw [((perm_orderOf useColMajorOrder).map c.add).mem_iff, List.mem_map, mem_offsets_iff]

theorem nodup_map_orderOf (useColMajorOrder : Bool) (c : Vec2d) :
    ((orderOf useColMajorOrder).map c.add).Nodup := by
  rw [((perm_orderOf useColMajorOrder).map c.add).nodup_iff]
  exact nodup_map_offsets c

/-- The loop over the steps. -/
theorem foldl_scheduleRow {order : List Vec2d} (hnodup : (order.map c.add).Nodup) (hq : InData d q) (n : Nat)
    {row : List UInt8} (hlength : row.length = d * d) :
    let row' := (order.zipIdx n).foldl (fun row offset =>
      match (dataIndicesOf d).lookup (c.add offset.1) with
      | some i => row.set i (offset.2 + 1).toUInt8
      | none => row) row
    row'.length = d * d ∧ row'.getD (index d q) 0 =
      if q ∈ order.map c.add then (n + (order.map c.add).idxOf q + 1).toUInt8 else row.getD (index d q) 0 := by
  induction order generalizing n row with
  | nil => exact ⟨hlength, rfl⟩
  | cons offset order ih =>
    rw [List.map_cons, List.nodup_cons] at hnodup
    rw [List.zipIdx_cons, List.foldl_cons, List.map_cons]
    by_cases hoffset : InData d (c.add offset)
    · have hset : (row.set (index d (c.add offset)) (n + 1).toUInt8).length = d * d := by
        rw [List.length_set, hlength]
      obtain ⟨hlength', hget⟩ := ih hnodup.2 (n + 1) hset
      simp only [lookup_dataIndicesOf, if_pos hoffset] at hlength' hget ⊢
      refine ⟨hlength', hget.trans ?_⟩
      by_cases heq : c.add offset = q
      · -- this step's qubit, which no later step touches
        have hlt : index d q < row.length := hlength ▸ index_lt hq
        rw [heq] at hnodup ⊢
        simp [hnodup.1, List.getD_eq_getElem?_getD, hlt]
      · have hindex : index d (c.add offset) ≠ index d q := fun h => heq ((index_inj hoffset hq).mp h)
        simp only [List.mem_cons, Ne.symm heq, false_or, List.idxOf_cons_ne _ heq]
        split
        · congr 1
          omega
        · simp [List.getD_eq_getElem?_getD, hindex]
    · have hne : c.add offset ≠ q := fun h => hoffset (h ▸ hq)
      obtain ⟨hlength', hget⟩ := ih hnodup.2 (n + 1) hlength
      simp only [lookup_dataIndicesOf, if_neg hoffset] at hlength' hget ⊢
      refine ⟨hlength', hget.trans ?_⟩
      simp only [List.mem_cons, Ne.symm hne, false_or, List.idxOf_cons_ne _ hne]
      split
      · congr 1
        omega
      · rfl

def codeRow (useColMajorOrder : Bool) (d : Nat) (c : Vec2d) : List UInt8 :=
  scheduleRow (orderOf useColMajorOrder) (dataIndicesOf d) (d * d) c

variable {useColMajorOrder useColMajorOrder' : Bool}

theorem length_codeRow (useColMajorOrder : Bool) (d : Nat) (c : Vec2d) :
    (codeRow useColMajorOrder d c).length = d * d := by
  by_cases hd : 0 < d
  · have hq : InData d ⟨0, 0⟩ := by
      simp only [InData]
      omega
    exact (foldl_scheduleRow (nodup_map_orderOf useColMajorOrder c) hq 0 List.length_replicate).1
  · obtain rfl : d = 0 := by omega
    rw [codeRow, scheduleRow]
    generalize (orderOf useColMajorOrder).zipIdx = order
    induction order with
    | nil => rfl
    | cons offset order ih => exact ih

theorem getD_codeRow (hq : InData d q) :
    (codeRow useColMajorOrder d c).getD (index d q) 0 =
      if Touches c q then (((orderOf useColMajorOrder).map c.add).idxOf q + 1).toUInt8 else 0 := by
  have hlength : (List.replicate (d * d) (0 : UInt8)).length = d * d := List.length_replicate
  have hget := (foldl_scheduleRow (nodup_map_orderOf useColMajorOrder c) hq 0 hlength).2
  rw [getD_replicate_self, Nat.zero_add] at hget
  simp only [← mem_map_orderOf useColMajorOrder]
  exact hget

theorem toNat_step {k : Nat} (hk : k < 4) : (k + 1).toUInt8.toNat = k + 1 := by
  interval_cases k <;> rfl

theorem exists_index {i : Nat} (hi : i < d * d) : ∃ q, InData d q ∧ index d q = i := by
  have hd : 0 < d := Nat.pos_of_mul_pos_right (Nat.zero_lt_of_lt hi)
  have hdiv : i / d < d := Nat.div_lt_of_lt_mul hi
  have hmod : i % d < d := Nat.mod_lt i hd
  refine ⟨coord (i / d, i % d), ?_, ?_⟩
  · simp only [InData, coord, Int.ofNat_lt]
    exact ⟨⟨Int.natCast_nonneg _, hdiv⟩, Int.natCast_nonneg _, hmod⟩
  · simp only [index, coord, Int.toNat_natCast]
    rw [Nat.mul_comm]
    exact Nat.div_add_mod i d

/-- What a step of a row is: the offset at its place in the order. -/
theorem codeRow_step {i : Nat} (h : (codeRow useColMajorOrder d c).getD i 0 ≠ 0) :
    ∃ k offset, (orderOf useColMajorOrder)[k]? = some offset ∧ InData d (c.add offset) ∧
      index d (c.add offset) = i ∧ ((codeRow useColMajorOrder d c).getD i 0).toNat = k + 1 := by
  by_cases hi : i < d * d
  · obtain ⟨q, hq, rfl⟩ := exists_index hi
    rw [getD_codeRow hq] at h ⊢
    by_cases htouches : Touches c q
    · rw [if_pos htouches]
      rw [← mem_map_orderOf useColMajorOrder] at htouches
      have hlt := List.idxOf_lt_length_of_mem htouches
      have hget := List.getElem_idxOf hlt
      rw [List.length_map] at hlt
      rw [List.getElem_map] at hget
      have hfour : (orderOf useColMajorOrder).length = 4 := (perm_orderOf useColMajorOrder).length_eq
      refine ⟨_, _, List.getElem?_eq_getElem hlt, ?_, ?_, toNat_step (by omega)⟩
      · rwa [hget]
      · rw [hget]
    · rw [if_neg htouches] at h
      exact absurd rfl h
  · rw [getD_of_length_le (by rw [length_codeRow]; omega)] at h
    exact absurd rfl h

theorem getD_codeRow_ne_zero {i : Nat} (hi : i < d * d) :
    (codeRow useColMajorOrder d c).getD i 0 ≠ 0 ↔ i ∈ stabilizerAt (dataIndicesOf d) c := by
  obtain ⟨q, hq, rfl⟩ := exists_index hi
  rw [getD_codeRow hq, index_mem_stabilizerAt hq]
  split
  · next h =>
    refine iff_of_true (fun hzero => ?_) h
    have hmem := (mem_map_orderOf useColMajorOrder).mpr h
    have hlt := List.idxOf_lt_length_of_mem hmem
    have hfour : (orderOf useColMajorOrder).length = 4 := (perm_orderOf useColMajorOrder).length_eq
    rw [List.length_map] at hlt
    have hstep := toNat_step (k := ((orderOf useColMajorOrder).map c.add).idxOf q) (by omega)
    rw [hzero] at hstep
    cases hstep
  · next h => exact iff_of_false (fun hne => hne rfl) h

theorem rowSupport_codeRow (useColMajorOrder : Bool) (d : Nat) (c : Vec2d) :
    rowSupport (codeRow useColMajorOrder d c) = stabilizerAt (dataIndicesOf d) c := by
  rw [rowSupport, length_codeRow]
  apply filter_range_eq (pairwise_stabilizerAt d c)
  · intro i hi
    obtain ⟨q, ⟨hq, -⟩, rfl⟩ := mem_stabilizerAt.mp hi
    exact index_lt hq
  · intro i hi
    rw [decide_eq_true_eq, getD_codeRow_ne_zero hi]

theorem codeRow_distinct (i : Nat) : (codeRow useColMajorOrder d c).getD i 0 ≤ 4 ∧
    ∀ j, (codeRow useColMajorOrder d c).getD i 0 ≠ 0 →
      (codeRow useColMajorOrder d c).getD i 0 = (codeRow useColMajorOrder d c).getD j 0 → i = j := by
  constructor
  · by_cases h : (codeRow useColMajorOrder d c).getD i 0 = 0
    · rw [h]
      decide
    · obtain ⟨k, offset, hk, -, -, hstep⟩ := codeRow_step h
      have hlt := (List.getElem?_eq_some_iff.mp hk).1
      have hfour : (orderOf useColMajorOrder).length = 4 := (perm_orderOf useColMajorOrder).length_eq
      rw [UInt8.le_iff_toNat_le, hstep]
      change k + 1 ≤ 4
      omega
  · intro j h heq
    obtain ⟨k, offset, hk, -, rfl, hstep⟩ := codeRow_step h
    rw [heq] at h hstep
    obtain ⟨k', offset', hk', -, rfl, hstep'⟩ := codeRow_step h
    obtain rfl : k = k' := by omega
    rw [hk] at hk'
    cases hk'
    rfl

/-- The orders go through the same antidiagonals. -/
theorem orderOf_sum {k : Nat} {offset offset' : Vec2d} (h : (orderOf useColMajorOrder)[k]? = some offset)
    (h' : (orderOf useColMajorOrder')[k]? = some offset') :
    offset.row + offset.col = offset'.row + offset'.col := by
  have hlt := (List.getElem?_eq_some_iff.mp h).1
  rw [(perm_orderOf useColMajorOrder).length_eq] at hlt
  change k < 4 at hlt
  interval_cases k <;> cases useColMajorOrder <;> cases useColMajorOrder' <;> cases h <;> cases h' <;> rfl

/-- Rows that touch a data qubit in the same step are of sites of the same sum, and of the same site if
they have the same order. -/
theorem codeRow_same_step {i : Nat} {step : UInt8} (hstep : step ≠ 0)
    (h : (codeRow useColMajorOrder d c).getD i 0 = step) (h' : (codeRow useColMajorOrder' d c').getD i 0 = step) :
    c.row + c.col = c'.row + c'.col ∧ (useColMajorOrder = useColMajorOrder' → c = c') := by
  subst h
  obtain ⟨k, offset, hk, hq, rfl, hnat⟩ := codeRow_step hstep
  rw [← h'] at hstep hnat
  obtain ⟨k', offset', hk', hq', hindex, hnat'⟩ := codeRow_step hstep
  obtain rfl : k = k' := by omega
  have hsame := (index_inj hq' hq).mp hindex
  have hsum := orderOf_sum hk hk'
  simp only [Vec2d.add, Vec2d.mk.injEq] at hsame
  refine ⟨by omega, ?_⟩
  rintro rfl
  rw [hk] at hk'
  cases hk'
  exact Vec2d.ext (by omega) (by omega)

/-! ## The order of the rows -/

/-- The first data qubit of a site: the one up and to the left, as far as there is one. -/
def firstIndex (d : Nat) (c : Vec2d) : Nat := index d ⟨max (c.row - 1) 0, max (c.col - 1) 0⟩

theorem inData_first (hc : IsSite d orientation c) : InData d ⟨max (c.row - 1) 0, max (c.col - 1) 0⟩ := by
  simp only [IsSite, InData] at hc ⊢
  omega

theorem firstIndex_mem (hc : IsSite d orientation c) : firstIndex d c ∈ stabilizerAt (dataIndicesOf d) c := by
  rw [firstIndex, index_mem_stabilizerAt (inData_first hc)]
  simp only [IsSite, Touches] at hc ⊢
  omega

theorem firstIndex_le {i : Nat} (hi : i ∈ stabilizerAt (dataIndicesOf d) c) : firstIndex d c ≤ i := by
  obtain ⟨q, ⟨hq, htouches⟩, rfl⟩ := mem_stabilizerAt.mp hi
  simp only [InData, Touches] at hq htouches
  apply Nat.add_le_add (Nat.mul_le_mul_right d _)
  · simp only
    omega
  · simp only
    omega

/-- At most one of the two sites next to the corner is there, and none in it. -/
theorem IsSite.corner (hc : IsSite d orientation c) :
    (c.row = 0 → c.col = 1 → orientation.topParity = 1) ∧
      (c.row = 1 → c.col = 0 → orientation.topParity ≠ 1) ∧ ¬ (c.row = 0 ∧ c.col = 0) := by
  rcases hc with hinside | hrows | hcols <;> omega

theorem IsSite.nonneg (hc : IsSite d orientation c) : 0 ≤ c.row ∧ 0 ≤ c.col := by
  rcases hc with hinside | hrows | hcols <;> omega

theorem firstIndex_inj (hc : IsSite d orientation c) (hc' : IsSite d orientation c')
    (hparity : (c.row + c.col) % 2 = (c'.row + c'.col) % 2) (h : firstIndex d c = firstIndex d c') : c = c' := by
  have hsame := (index_inj (inData_first hc) (inData_first hc')).mp h
  simp only [Vec2d.mk.injEq] at hsame
  obtain ⟨hpos, hpos'⟩ := And.intro hc.nonneg hc'.nonneg
  have hrows : c.row = c'.row := by
    by_contra hne
    -- then they are the two sites next to the corner, or one is in it
    have hrow : (c.row = 0 ∧ c'.row = 1) ∨ (c.row = 1 ∧ c'.row = 0) := by
      clear hc hc' hparity h
      omega
    have hcol : (c.col = 0 ∧ c'.col = 1) ∨ (c.col = 1 ∧ c'.col = 0) := by
      clear hc hc' h
      clear * - hparity hsame hpos hpos' hne
      omega
    rcases hrow with ⟨hr, hr'⟩ | ⟨hr, hr'⟩ <;> rcases hcol with ⟨hq, hq'⟩ | ⟨hq, hq'⟩
    · exact hc.corner.2.2 ⟨hr, hq⟩
    · exact hc'.corner.2.1 hr' hq' (hc.corner.1 hr hq)
    · exact hc.corner.2.1 hr hq (hc'.corner.1 hr' hq')
    · exact hc'.corner.2.2 ⟨hr', hq'⟩
  clear hc hc' h
  exact Vec2d.ext hrows (by omega)

/-- What holds of a site's qubits alone holds first of its first. -/
theorem findIdx_eq_firstIndex {α : Type} {a : α} {l : List α} {p : α → Bool} (hc : IsSite d orientation c)
    (hlength : l.length = d * d)
    (hp : ∀ i < d * d, p (l.getD i a) = true ↔ i ∈ stabilizerAt (dataIndicesOf d) c) :
    l.findIdx p = firstIndex d c := by
  have hlt : firstIndex d c < d * d := index_lt (inData_first hc)
  have hget {i : Nat} (hi : i < l.length) : l[i] = l.getD i a := by
    rw [List.getD_eq_getElem?_getD, List.getElem?_eq_getElem hi, Option.getD_some]
  rw [List.findIdx_eq (by omega)]
  constructor
  · rw [hget, hp _ hlt]
    exact firstIndex_mem hc
  · intro j hj
    rw [hget, ← Bool.not_eq_true, hp j (by omega)]
    intro hmem
    have := firstIndex_le hmem
    omega

/-- Sites of one type: of one parity, each once. -/
structure OneType (d : Nat) (orientation : ScOrientation) (sites : List Vec2d) : Prop where
  nodup : sites.Nodup
  isSite : ∀ c ∈ sites, IsSite d orientation c
  parity : ∀ c ∈ sites, ∀ c' ∈ sites, (c.row + c.col) % 2 = (c'.row + c'.col) % 2

def sortSites (d : Nat) (sites : List Vec2d) : List Vec2d :=
  sites.insertionSort fun a b => firstIndex d a ≤ firstIndex d b

theorem perm_sortSites (d : Nat) (sites : List Vec2d) : (sortSites d sites).Perm sites :=
  List.perm_insertionSort _ _

variable {sites : List Vec2d}

theorem OneType.perm {sites' : List Vec2d} (h : OneType d orientation sites) (hperm : sites'.Perm sites) :
    OneType d orientation sites' where
  nodup := hperm.nodup_iff.mpr h.nodup
  isSite c hc := h.isSite c (hperm.mem_iff.mp hc)
  parity c hc c' hc' := h.parity c (hperm.mem_iff.mp hc) c' (hperm.mem_iff.mp hc')

theorem OneType.pairwise_sortSites (h : OneType d orientation sites) :
    (sortSites d sites).Pairwise fun a b => firstIndex d a < firstIndex d b := by
  have htotal : Std.Total fun a b : Vec2d => firstIndex d a ≤ firstIndex d b := ⟨fun _ _ => Nat.le_total _ _⟩
  have htrans : IsTrans Vec2d fun a b => firstIndex d a ≤ firstIndex d b := ⟨fun _ _ _ => Nat.le_trans⟩
  have hle : (sortSites d sites).Pairwise fun a b => firstIndex d a ≤ firstIndex d b :=
    List.pairwise_insertionSort _ sites
  have hsorted := h.perm (perm_sortSites d sites)
  refine (hle.and hsorted.nodup).imp_of_mem ?_
  rintro a b ha hb ⟨hab, hne⟩
  refine Nat.lt_of_le_of_ne hab fun heq => hne ?_
  exact firstIndex_inj (hsorted.isSite a ha) (hsorted.isSite b hb) (hsorted.parity a ha b hb) heq

theorem findIdx_codeRow (hc : IsSite d orientation c) :
    (codeRow useColMajorOrder d c).findIdx (fun v => decide (v ≠ 0)) = firstIndex d c := by
  apply findIdx_eq_firstIndex (a := 0) hc (length_codeRow useColMajorOrder d c)
  intro i hi
  rw [decide_eq_true_eq, getD_codeRow_ne_zero hi]

/-- A schedule does not throw, and has its rows in the order of their first data qubits. -/
theorem buildCnotSchedule_eq_ok (h : OneType d orientation sites) (useColMajorOrder : Bool) :
    buildCnotSchedule sites (dataIndicesOf d) (d * d) useColMajorOrder =
      .ok ((sortSites d sites).map (codeRow useColMajorOrder d)) := by
  let rows := sites.map (codeRow useColMajorOrder d)
  let first : List UInt8 → Nat := fun row => row.findIdx fun v => decide (v ≠ 0)
  let pairs := rows.zipIdx.map fun row => (first row.1, row.2)
  let keyed := pairs.insertionSort fun a b => toLex a ≤ toLex b
  have hfirst : ∀ c ∈ sites, first (codeRow useColMajorOrder d c) = firstIndex d c :=
    fun c hc => findIdx_codeRow (h.isSite c hc)
  have hperm : keyed.Perm pairs := List.perm_insertionSort _ _
  -- each pair is the first data qubit of its row
  have hrow : ∀ row ∈ keyed, first (rows.getD row.2 []) = row.1 := by
    intro row hrow
    obtain ⟨⟨r, i⟩, hr, rfl⟩ := List.mem_map.mp (hperm.mem_iff.mp hrow)
    have hget := List.mem_zipIdx_iff_getElem?.mp hr
    rw [List.getD_eq_getElem?_getD, hget, Option.getD_some]
  have hrows : (keyed.map fun row => rows.getD row.2 []).Perm rows := by
    refine (hperm.map _).trans (List.Perm.of_eq ?_)
    have hread : ∀ row ∈ rows.zipIdx, rows.getD row.2 [] = row.1 := by
      intro row hrow
      rw [List.getD_eq_getElem?_getD, List.mem_zipIdx_iff_getElem?.mp hrow, Option.getD_some]
    rw [List.map_map]
    exact (List.map_congr_left hread).trans (List.zipIdx_map_fst 0 rows)
  have hdistinct : (keyed.map Prod.fst).Nodup := by
    have hfirsts : pairs.map Prod.fst = sites.map (firstIndex d) := by
      have hcomp : pairs.map Prod.fst = (rows.zipIdx.map Prod.fst).map first := by
        rw [List.map_map, List.map_map]
        rfl
      rw [hcomp, List.zipIdx_map_fst, List.map_map]
      exact List.map_congr_left hfirst
    rw [(hperm.map _).nodup_iff, hfirsts]
    refine h.nodup.map_on fun a ha b hb hab => ?_
    exact firstIndex_inj (h.isSite a ha) (h.isSite b hb) (h.parity a ha b hb) hab
  have hstrict : keyed.Pairwise fun a b => a.1 < b.1 := by
    have htotal : Std.Total fun a b : Nat × Nat => toLex a ≤ toLex b := ⟨fun _ _ => le_total _ _⟩
    have htrans : IsTrans (Nat × Nat) fun a b => toLex a ≤ toLex b := ⟨fun _ _ _ => le_trans⟩
    have hle : keyed.Pairwise fun a b => toLex a ≤ toLex b := List.pairwise_insertionSort _ pairs
    refine (hle.and (List.pairwise_map.mp hdistinct)).imp fun ⟨hab, hne⟩ => ?_
    rcases Prod.Lex.toLex_le_toLex.mp hab with hlt | ⟨heq, -⟩
    · exact hlt
    · exact absurd heq hne
  have hsorted : (keyed.map fun row => rows.getD row.2 []) =
      (sortSites d sites).map (codeRow useColMajorOrder d) := by
    have hkeyed : (keyed.map fun row => rows.getD row.2 []).Pairwise fun a b => first a < first b := by
      rw [List.pairwise_map]
      refine hstrict.imp_of_mem fun ha hb hab => ?_
      rwa [hrow _ ha, hrow _ hb]
    have hsites : ((sortSites d sites).map (codeRow useColMajorOrder d)).Pairwise fun a b => first a < first b := by
      rw [List.pairwise_map]
      refine h.pairwise_sortSites.imp_of_mem fun ha hb hab => ?_
      rwa [hfirst _ ((perm_sortSites d sites).mem_iff.mp ha), hfirst _ ((perm_sortSites d sites).mem_iff.mp hb)]
    exact (hrows.trans ((perm_sortSites d sites).map _).symm).eq_of_pairwise
      (fun _ _ _ _ hab hba => absurd hba hab.asymm) hkeyed hsites
  have hchain : keyed.IsChain fun previous current => current.1 ≠ previous.1 :=
    (hstrict.imp fun hlt => hlt.ne').isChain
  change (throwIf (¬ keyed.IsChain fun previous current => current.1 ≠ previous.1) _ >>= fun _ =>
    .ok (keyed.map fun row => rows.getD row.2 [])) = _
  rw [throwIf_of_not (not_not_intro hchain), ok_bind, hsorted]

/-! ## The parity matrix -/

def codeWord (p : Pauli) (d : Nat) (c : Vec2d) : List Pauli := wordOf p (d * d) (stabilizerAt (dataIndicesOf d) c)

theorem findFirstOf_codeWord (hc : IsSite d orientation c) {p : Pauli} (hp : p ≠ .i) :
    findFirstOf p (codeWord p d c) = ((firstIndex d c : Nat) : WithTop Nat) := by
  have hlength : (codeWord p d c).length = d * d := length_wordOf _ _ _
  have hfirst : (codeWord p d c).findIdx (fun r => decide (r = p)) = firstIndex d c := by
    apply findIdx_eq_firstIndex (a := .i) hc hlength
    intro i hi
    rw [codeWord, getD_wordOf p _ hi, decide_eq_true_eq]
    split
    · next h => exact iff_of_true rfl h
    · next h => exact iff_of_false hp.symm h
  refine List.findIdx?_eq_some_iff_findIdx_eq.mpr ⟨?_, hfirst⟩
  rw [hlength]
  exact index_lt (inData_first hc)

theorem findFirstOf_codeWord_ne {p p' : Pauli} (hp : p' ≠ .i) (hne : p' ≠ p) (d : Nat) (c : Vec2d) :
    findFirstOf p' (codeWord p d c) = ⊤ := by
  refine List.findIdx?_eq_none_iff.mpr fun r hr => ?_
  rw [decide_eq_false_iff_not]
  rcases mem_wordOf hr with rfl | rfl
  · exact hp.symm
  · exact hne.symm

/-- The words in order: the Z sites by their first data qubits, then the X sites. -/
def orderedWords (d : Nat) (xSites zSites : List Vec2d) : List (List Pauli) :=
  (sortSites d zSites).map (codeWord .z d) ++ (sortSites d xSites).map (codeWord .x d)

variable {xSites zSites : List Vec2d}

theorem wordKey_z (hc : IsSite d orientation c) :
    wordKey (codeWord .z d c) = toLex (((firstIndex d c : Nat) : WithTop Nat), ⊤) := by
  have hne : ((firstIndex d c : Nat) : WithTop Nat) ≠ ⊤ := WithTop.coe_ne_top
  rw [wordKey, findFirstOf_codeWord hc (by decide), if_neg hne]

theorem wordKey_x (hc : IsSite d orientation c) :
    wordKey (codeWord .x d c) = toLex (⊤, ((firstIndex d c : Nat) : WithTop Nat)) := by
  rw [wordKey, findFirstOf_codeWord_ne (by decide) (by decide), if_pos rfl, findFirstOf_codeWord hc (by decide)]

theorem sortWords_codeWord (hx : OneType d orientation xSites) (hz : OneType d orientation zSites)
    {words : List (List Pauli)} (hperm : words.Perm (xSites.map (codeWord .x d) ++ zSites.map (codeWord .z d))) :
    sortWords words = orderedWords d xSites zSites := by
  have hxs := hx.perm (perm_sortSites d xSites)
  have hzs := hz.perm (perm_sortSites d zSites)
  apply sortWords_eq
  · refine hperm.trans (List.perm_append_comm.trans ?_)
    exact ((perm_sortSites d zSites).symm.map _).append ((perm_sortSites d xSites).symm.map _)
  · rw [orderedWords, List.pairwise_append, List.pairwise_map, List.pairwise_map]
    refine ⟨hz.pairwise_sortSites.imp_of_mem ?_, hx.pairwise_sortSites.imp_of_mem ?_, ?_⟩
    · intro a b ha hb hab
      rw [wordKey_z (hzs.isSite a ha), wordKey_z (hzs.isSite b hb), Prod.Lex.toLex_lt_toLex]
      exact .inl (WithTop.coe_lt_coe.mpr hab)
    · intro a b ha hb hab
      rw [wordKey_x (hxs.isSite a ha), wordKey_x (hxs.isSite b hb), Prod.Lex.toLex_lt_toLex]
      exact .inr ⟨rfl, WithTop.coe_lt_coe.mpr hab⟩
    · intro u hu v hv
      obtain ⟨a, ha, rfl⟩ := List.mem_map.mp hu
      obtain ⟨b, hb, rfl⟩ := List.mem_map.mp hv
      rw [wordKey_z (hzs.isSite a ha), wordKey_x (hxs.isSite b hb), Prod.Lex.toLex_lt_toLex]
      exact .inl (WithTop.coe_lt_top _)

theorem takeWhile_orderedWords (xSites : List Vec2d) (hz : OneType d orientation zSites) :
    (orderedWords d xSites zSites).takeWhile (fun word => decide (findFirstOf .z word ≠ ⊤)) =
      (sortSites d zSites).map (codeWord .z d) := by
  have hzs := hz.perm (perm_sortSites d zSites)
  have hall : ∀ word ∈ (sortSites d zSites).map (codeWord .z d), decide (findFirstOf .z word ≠ ⊤) = true := by
    intro word hword
    obtain ⟨c, hc, rfl⟩ := List.mem_map.mp hword
    rw [decide_eq_true_eq, findFirstOf_codeWord (hzs.isSite c hc) (by decide)]
    exact WithTop.coe_ne_top
  rw [orderedWords, List.takeWhile_append_of_pos hall]
  cases hx : (sortSites d xSites).map (codeWord .x d) with
  | nil => rw [List.takeWhile_nil, List.append_nil]
  | cons word words =>
    have hword : word ∈ (sortSites d xSites).map (codeWord .x d) := by simp [hx]
    obtain ⟨c, -, rfl⟩ := List.mem_map.mp hword
    have hnot : findFirstOf .z (codeWord .x d c) = ⊤ := findFirstOf_codeWord_ne (by decide) (by decide) d c
    rw [List.takeWhile_cons_of_neg (by simp [hnot]), List.append_nil]

/-- The parity matrices have a row for each site of their type, in the order of the first data qubits. -/
theorem toParityMatrix_codeWord {Term : Type} {terms : SpinOpTerms Term} {stabilizers : List Term}
    (hx : OneType d orientation xSites) (hz : OneType d orientation zSites) (hne : stabilizers ≠ [])
    (hperm : (stabilizers.map terms.getPauliWord).Perm
      (xSites.map (codeWord .x d) ++ zSites.map (codeWord .z d))) :
    toParityMatrix terms stabilizers .x =
        (sortSites d xSites).map (fun c => parityRow .x (d * d) (codeWord .x d c)) ∧
      toParityMatrix terms stabilizers .z =
        (sortSites d zSites).map fun c => parityRow .z (d * d) (codeWord .z d c) := by
  have hsort := sortWords_codeWord hx hz hperm
  have htake := takeWhile_orderedWords xSites hz
  have hempty : stabilizers.isEmpty = false := by
    cases stabilizers
    · exact absurd rfl hne
    · rfl
  -- all words have the width of the first
  have hlength : ((orderedWords d xSites zSites).headD []).length = d * d := by
    cases hwords : orderedWords d xSites zSites with
    | nil =>
      have hnil := (List.perm_insertionSort (fun a b => spinOpComparatorStr b a = false)
        (stabilizers.map terms.getPauliWord)).symm
      change (stabilizers.map terms.getPauliWord).Perm (sortWords _) at hnil
      rw [hsort, hwords] at hnil
      exact absurd (List.map_eq_nil_iff.mp hnil.eq_nil) hne
    | cons word words =>
      have hword : word ∈ orderedWords d xSites zSites := by simp [hwords]
      rcases List.mem_append.mp hword with hword | hword
      · obtain ⟨c, -, rfl⟩ := List.mem_map.mp hword
        exact length_wordOf _ _ _
      · obtain ⟨c, -, rfl⟩ := List.mem_map.mp hword
        exact length_wordOf _ _ _
  unfold toParityMatrix
  simp only [hempty, hsort, hlength, htake]
  constructor
  · change ((orderedWords d xSites zSites).drop _).map _ = _
    rw [orderedWords, List.drop_left, List.map_map]
    rfl
  · change ((orderedWords d xSites zSites).take _).map _ = _
    rw [orderedWords, List.take_left, List.map_map]
    rfl

end CudaqQec.SurfaceCode
