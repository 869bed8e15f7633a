import CudaqQec.Codes.SurfaceSchedule

/-!
# The surface code is valid

At every distance from 2 for which there is a grid, the stabilizers and observables of the surface code form
a code, and its CNOT schedules fit its parity matrices.

* `IsGrid.validObservables`, `IsGrid.validSchedules`: the observables and the schedules of a grid.
* `stabilizerGrid_valid_iff`: the code is valid at distances below 65535, and at no other.
-/

namespace CudaqQec.SurfaceCode

open Checked PauliWords

/-! ## What a valid code is -/

/-- The observables commute with the stabilizers and anticommute with each other. -/
structure ValidObservables (g : StabilizerGrid) (xObs zObs : List Pauli) : Prop where
  onlyX : ∀ p ∈ xObs, p = .i ∨ p = .x
  onlyZ : ∀ p ∈ zObs, p = .i ∨ p = .z
  xCommutes : ∀ z ∈ g.zStabilizers, Even (overlap z (wordSupport .x xObs))
  zCommutes : ∀ x ∈ g.xStabilizers, Even (overlap x (wordSupport .z zObs))
  anticommute : Odd (overlap (wordSupport .x xObs) (wordSupport .z zObs))

/-- The schedules fit the parity matrices, and may run in the same timesteps. -/
structure ValidSchedules {Term : Type} (terms : SpinOpTerms Term) (stabilizers : List Term)
    (scheduleX scheduleZ : List (List UInt8)) : Prop where
  supportX : scheduleX.map rowSupport = (toParityMatrix terms stabilizers .x).map rowSupport
  supportZ : scheduleZ.map rowSupport = (toParityMatrix terms stabilizers .z).map rowSupport
  steps : ∀ row ∈ scheduleX ++ scheduleZ, ∀ i, row.getD i 0 ≤ 4 ∧
    ∀ j, row.getD i 0 ≠ 0 → row.getD i 0 = row.getD j 0 → i = j
  apart : ∀ step ≠ 0, ∀ i, ((scheduleX ++ scheduleZ).filter fun row => decide (row.getD i 0 = step)).length ≤ 1

/-- A valid stabilizer code with schedules that fit it. -/
structure ValidCode {Term : Type} (terms : SpinOpTerms Term) (d : Nat) (g : StabilizerGrid) : Prop where
  count : g.xStabilizers.length + g.zStabilizers.length = d * d - 1
  words : (getSpinOpStabilizers terms g).map (fun term =>
      (wordSupport .x (terms.getPauliWord term), wordSupport .z (terms.getPauliWord term))) =
    g.xStabilizers.map (fun x => (x, [])) ++ g.zStabilizers.map fun z => ([], z)
  commute : ∀ x ∈ g.xStabilizers, ∀ z ∈ g.zStabilizers, Even (overlap x z)
  observables : ∃ xObs zObs, (getSpinOpObservables terms g).map terms.getPauliWord = [xObs, zObs] ∧
    ValidObservables g xObs zObs
  schedules : ∃ scheduleX scheduleZ, getCnotScheduleX g = .ok scheduleX ∧ getCnotScheduleZ g = .ok scheduleZ ∧
    ∀ stabilizers, stabilizers.Perm (getSpinOpStabilizers terms g) →
      ValidSchedules terms stabilizers scheduleX scheduleZ

variable {d : Nat} {orientation : ScOrientation} {c q : Vec2d} {g : StabilizerGrid}

/-! ## Observables -/

theorem index_lt_iff (hq : InData d q) : index d q < d ↔ q.row = 0 := by
  obtain ⟨⟨h1, h2⟩, h3, h4⟩ := hq
  rw [index]
  constructor
  · intro hlt
    by_contra hne
    have := Nat.mul_le_mul_right d (show 1 ≤ q.row.toNat by omega)
    omega
  · intro hzero
    rw [hzero, Int.toNat_zero, Nat.zero_mul]
    omega

theorem index_mod_iff (hq : InData d q) : index d q % d = 0 ↔ q.col = 0 := by
  obtain ⟨⟨h1, h2⟩, h3, h4⟩ := hq
  rw [index, Nat.mul_comm, Nat.mul_add_mod, Nat.mod_eq_of_lt (by omega)]
  omega

def leftCol (d : Nat) : List Nat := (List.range (d * d)).filter fun i => i % d = 0

theorem index_mem_leftCol (hq : InData d q) : index d q ∈ leftCol d ↔ q.col = 0 := by
  rw [leftCol, List.mem_filter, List.mem_range, decide_eq_true_eq, index_mod_iff hq]
  exact and_iff_right (index_lt hq)

/-- A site that is not on the left or right edge has two qubits of the top row or none. -/
theorem even_overlap_topRow (hc : IsSite d orientation c) (hparity : (c.row + c.col) % 2 = orientation.topParity) :
    Even (overlap (stabilizerAt (dataIndicesOf d) c) (List.range d)) := by
  have hrow : ∀ offset, (InData d (c.add offset) ∧ index d (c.add offset) ∈ List.range d) ↔
      InData d (c.add offset) ∧ (c.add offset).row = 0 := by
    intro offset
    rw [List.mem_range]
    exact and_congr_right index_lt_iff
  rw [overlap_stabilizerAt]
  simp only [hrow]
  apply even_countP_offsets
  left
  simp only [IsSite, InData, Vec2d.add] at hc ⊢
  have hinside : 0 < c.col ∧ c.col < d := by omega
  refine ⟨⟨fun h => ?_, fun h => ?_⟩, ⟨fun h => ?_, fun h => ?_⟩⟩ <;> omega

/-- A site that is not on the top or bottom edge has two qubits of the left column or none. -/
theorem even_overlap_leftCol (hc : IsSite d orientation c) (hparity : (c.row + c.col) % 2 ≠ orientation.topParity) :
    Even (overlap (stabilizerAt (dataIndicesOf d) c) (leftCol d)) := by
  have hcol : ∀ offset, (InData d (c.add offset) ∧ index d (c.add offset) ∈ leftCol d) ↔
      InData d (c.add offset) ∧ (c.add offset).col = 0 :=
    fun offset => and_congr_right index_mem_leftCol
  rw [overlap_stabilizerAt]
  simp only [hcol]
  apply even_countP_offsets
  right
  simp only [IsSite, InData, Vec2d.add] at hc ⊢
  have hinside : 0 < c.row ∧ c.row < d := by omega
  refine ⟨⟨fun h => ?_, fun h => ?_⟩, ⟨fun h => ?_, fun h => ?_⟩⟩ <;> omega

/-- The top row and the left column share their first qubit. -/
theorem overlap_topRow_leftCol (hd : 0 < d) :
    overlap (List.range d) (leftCol d) = 1 ∧ overlap (leftCol d) (List.range d) = 1 := by
  have hsquare : d ≤ d * d := Nat.le_mul_self d
  have hmem : ∀ i, i ∈ leftCol d ∧ i < d ↔ i = 0 := by
    intro i
    rw [leftCol, List.mem_filter, List.mem_range, decide_eq_true_eq]
    constructor
    · rintro ⟨⟨-, hmod⟩, hlt⟩
      rwa [Nat.mod_eq_of_lt hlt] at hmod
    · rintro rfl
      exact ⟨⟨by omega, Nat.zero_mod d⟩, hd⟩
  have hone : [0].Pairwise ((· < ·) : Nat → Nat → Prop) := List.pairwise_singleton _ _
  constructor
  · have hfilter : ((List.range d).filter fun i => decide (i ∈ leftCol d)) = [0] := by
      refine filter_range_eq hone (by simpa using hd) fun i hi => ?_
      rw [decide_eq_true_eq, List.mem_singleton, ← hmem i]
      exact (and_iff_left hi).symm
    rw [overlap, hfilter, List.length_singleton]
  · have hfilter : ((leftCol d).filter fun i => decide (i ∈ List.range d)) = [0] := by
      apply eq_of_pairwise_lt_of_mem_iff ((List.pairwise_lt_range.filter _).filter _) hone
      intro i
      rw [List.mem_filter, decide_eq_true_eq, List.mem_range, List.mem_singleton]
      exact hmem i
    rw [overlap, hfilter, List.length_singleton]

theorem xLogicalOnTopRow_iff (orientation : ScOrientation) :
    xLogicalOnTopRow orientation = true ↔ orientation.xParity ≠ orientation.topParity := by
  cases orientation <;> decide

theorem pairwise_leftCol (d : Nat) : (leftCol d).Pairwise (· < ·) := List.pairwise_lt_range.filter _

theorem lt_of_mem_leftCol {i : Nat} (hi : i ∈ leftCol d) : i < d * d := by
  rw [leftCol, List.mem_filter, List.mem_range] at hi
  exact hi.1

namespace IsGrid

theorem length_dataCoords (h : IsGrid d orientation g) : g.dataCoords.length = d * d := by
  have hsquare : (square d).length = (List.range d).length * (List.range d).length := List.length_product _ _
  rw [h.dataCoords_eq, List.length_map, hsquare, List.length_range]

theorem xStabilizers_eq_map (h : IsGrid d orientation g) :
    g.xStabilizers = (coordsOf d orientation .amx).map (stabilizerAt (dataIndicesOf d)) := by
  rw [h.xStabilizers_eq, h.xStabCoords_eq, h.dataIndices_eq]

theorem zStabilizers_eq_map (h : IsGrid d orientation g) :
    g.zStabilizers = (coordsOf d orientation .amz).map (stabilizerAt (dataIndicesOf d)) := by
  rw [h.zStabilizers_eq, h.zStabCoords_eq, h.dataIndices_eq]

/-- Two observables of which one runs along the top row and one down the left column. -/
theorem validObservables (h : IsGrid d orientation g) (hd : 0 < d) {xElems zElems : List Nat}
    (helems : (orientation.xParity ≠ orientation.topParity ∧ xElems = List.range d ∧ zElems = leftCol d) ∨
      (orientation.xParity = orientation.topParity ∧ xElems = leftCol d ∧ zElems = List.range d)) :
    ValidObservables g (wordOf .x (d * d) xElems) (wordOf .z (d * d) zElems) := by
  have hrow : ∀ i ∈ List.range d, i < d * d := fun i hi => by
    have := Nat.le_mul_self d
    have := List.mem_range.mp hi
    omega
  have hcol : ∀ i ∈ leftCol d, i < d * d := fun i => lt_of_mem_leftCol
  have htop := orientation.topParity_eq
  have hx := orientation.xParity_eq
  obtain ⟨hoverlap, hoverlap'⟩ := overlap_topRow_leftCol hd
  -- the support of each word is the line it was written along
  have hsupport : wordSupport .x (wordOf .x (d * d) xElems) = xElems ∧
      wordSupport .z (wordOf .z (d * d) zElems) = zElems := by
    rcases helems with ⟨-, rfl, rfl⟩ | ⟨-, rfl, rfl⟩
    · exact ⟨wordSupport_wordOf (by decide) List.pairwise_lt_range hrow,
        wordSupport_wordOf (by decide) (pairwise_leftCol d) hcol⟩
    · exact ⟨wordSupport_wordOf (by decide) (pairwise_leftCol d) hcol,
        wordSupport_wordOf (by decide) List.pairwise_lt_range hrow⟩
  refine ⟨fun _ => mem_wordOf, fun _ => mem_wordOf, ?_, ?_, ?_⟩
  · intro z hz
    rw [h.zStabilizers_eq_map] at hz
    obtain ⟨c, hc, rfl⟩ := List.mem_map.mp hz
    obtain ⟨hsite, hparity⟩ := mem_coordsOf_amz.mp hc
    rw [hsupport.1]
    rcases helems with ⟨hne, rfl, -⟩ | ⟨heq, rfl, -⟩
    · exact even_overlap_topRow hsite (by omega)
    · exact even_overlap_leftCol hsite (by omega)
  · intro x hx
    rw [h.xStabilizers_eq_map] at hx
    obtain ⟨c, hc, rfl⟩ := List.mem_map.mp hx
    obtain ⟨hsite, hparity⟩ := mem_coordsOf_amx.mp hc
    rw [hsupport.2]
    rcases helems with ⟨hne, -, rfl⟩ | ⟨heq, -, rfl⟩
    · exact even_overlap_leftCol hsite (by omega)
    · exact even_overlap_topRow hsite (by omega)
  · rw [hsupport.1, hsupport.2]
    rcases helems with ⟨-, rfl, rfl⟩ | ⟨-, rfl, rfl⟩
    · rw [hoverlap]
      exact odd_one
    · rw [hoverlap']
      exact odd_one

theorem exists_observables {Term : Type} (terms : SpinOpTerms Term) (h : IsGrid d orientation g) (hd : 0 < d) :
    ∃ xObs zObs, (getSpinOpObservables terms g).map terms.getPauliWord = [xObs, zObs] ∧
      ValidObservables g xObs zObs := by
  unfold getSpinOpObservables
  simp only [h.length_dataCoords, h.distance_eq, h.orientation_eq]
  by_cases htop : xLogicalOnTopRow orientation = true
  · rw [if_pos htop]
    simp only [List.map_cons, List.map_nil, terms.getPauliWord_fromWord]
    exact ⟨_, _, rfl, h.validObservables hd (.inl ⟨(xLogicalOnTopRow_iff _).mp htop, rfl, rfl⟩)⟩
  · rw [if_neg htop]
    simp only [List.map_cons, List.map_nil, terms.getPauliWord_fromWord]
    rw [xLogicalOnTopRow_iff, not_not] at htop
    exact ⟨_, _, rfl, h.validObservables hd (.inr ⟨htop, rfl, rfl⟩)⟩

end IsGrid

/-! ## Schedules -/

theorem oneType_amx (d : Nat) (orientation : ScOrientation) :
    OneType d orientation (coordsOf d orientation .amx) where
  nodup := nodup_coordsOf d orientation .amx
  isSite _ hc := (mem_coordsOf_amx.mp hc).1
  parity _ hc _ hc' := (mem_coordsOf_amx.mp hc).2.trans (mem_coordsOf_amx.mp hc').2.symm

theorem oneType_amz (d : Nat) (orientation : ScOrientation) :
    OneType d orientation (coordsOf d orientation .amz) where
  nodup := nodup_coordsOf d orientation .amz
  isSite _ hc := (mem_coordsOf_amz.mp hc).1
  parity _ hc _ hc' := by
    have := (mem_coordsOf_amz.mp hc).2
    have := (mem_coordsOf_amz.mp hc').2
    have := orientation.xParity_eq
    omega

/-- At most one of a list is mapped to what a filter keeps, if no two are. -/
theorem length_filter_map_le_one {α β : Type} {l : List α} (hl : l.Nodup) (f : α → β) {p : β → Bool}
    (h : ∀ a ∈ l, ∀ b ∈ l, p (f a) = true → p (f b) = true → a = b) : ((l.map f).filter p).length ≤ 1 := by
  rw [List.filter_map, List.length_map]
  have hnodup := hl.filter (p ∘ f)
  cases hkept : l.filter (p ∘ f) with
  | nil => exact Nat.zero_le 1
  | cons a kept =>
    cases kept with
    | nil => exact le_rfl
    | cons b kept =>
      have ha : a ∈ l.filter (p ∘ f) := by simp [hkept]
      have hb : b ∈ l.filter (p ∘ f) := by simp [hkept]
      rw [List.mem_filter] at ha hb
      rw [hkept, h a ha.1 b hb.1 ha.2 hb.2] at hnodup
      exact absurd List.mem_cons_self (List.nodup_cons.mp hnodup).1

namespace IsGrid

theorem map_getPauliWord {Term : Type} (terms : SpinOpTerms Term) (h : IsGrid d orientation g) :
    (getSpinOpStabilizers terms g).map terms.getPauliWord =
      (coordsOf d orientation .amx).map (codeWord .x d) ++ (coordsOf d orientation .amz).map (codeWord .z d) := by
  simp only [getSpinOpStabilizers, h.length_dataCoords, h.xStabilizers_eq_map, h.zStabilizers_eq_map,
    List.map_append, List.map_map, Function.comp_def, terms.getPauliWord_fromWord]
  rfl

theorem wordSupport_codeWord {p : Pauli} (hp : p ≠ .i) (d : Nat) (c : Vec2d) :
    wordSupport p (codeWord p d c) = stabilizerAt (dataIndicesOf d) c := by
  apply wordSupport_wordOf hp (pairwise_stabilizerAt d c)
  intro i hi
  obtain ⟨q, ⟨hq, -⟩, rfl⟩ := mem_stabilizerAt.mp hi
  exact index_lt hq

theorem map_wordSupport {Term : Type} (terms : SpinOpTerms Term) (h : IsGrid d orientation g) :
    (getSpinOpStabilizers terms g).map (fun term =>
        (wordSupport .x (terms.getPauliWord term), wordSupport .z (terms.getPauliWord term))) =
      g.xStabilizers.map (fun x => (x, [])) ++ g.zStabilizers.map fun z => ([], z) := by
  have hx (c : Vec2d) : wordSupport .z (codeWord .x d c) = [] :=
    wordSupport_wordOf_ne (by decide) (by decide) _ _
  have hz (c : Vec2d) : wordSupport .x (codeWord .z d c) = [] :=
    wordSupport_wordOf_ne (by decide) (by decide) _ _
  have hmap : (getSpinOpStabilizers terms g).map (fun term =>
      (wordSupport .x (terms.getPauliWord term), wordSupport .z (terms.getPauliWord term))) =
      ((getSpinOpStabilizers terms g).map terms.getPauliWord).map fun word =>
        (wordSupport .x word, wordSupport .z word) := by
    rw [List.map_map]
    rfl
  rw [hmap, h.map_getPauliWord terms, h.xStabilizers_eq_map, h.zStabilizers_eq_map]
  simp only [List.map_append, List.map_map, Function.comp_def, hx, hz,
    wordSupport_codeWord (p := .x) (by decide), wordSupport_codeWord (p := .z) (by decide)]

/-- The schedules of a grid. -/
theorem validSchedules {Term : Type} {terms : SpinOpTerms Term} (h : IsGrid d orientation g) (hd : 2 ≤ d)
    {stabilizers : List Term} (hperm : stabilizers.Perm (getSpinOpStabilizers terms g)) (useColMajorOrder : Bool) :
    ValidSchedules terms stabilizers
      ((sortSites d (coordsOf d orientation .amx)).map (codeRow useColMajorOrder d))
      ((sortSites d (coordsOf d orientation .amz)).map (codeRow (!useColMajorOrder) d)) := by
  have hx := oneType_amx d orientation
  have hz := oneType_amz d orientation
  have hwords := hperm.map terms.getPauliWord
  rw [h.map_getPauliWord terms] at hwords
  have hne : stabilizers ≠ [] := by
    rintro rfl
    have hcount := length_coordsOf (show 0 < d by omega) orientation
    have hlength := hwords.length_eq
    rw [List.length_append, List.length_map, List.length_map, List.length_map, hcount, List.length_nil] at hlength
    have := Nat.mul_le_mul hd hd
    omega
  obtain ⟨hparityX, hparityZ⟩ := toParityMatrix_codeWord hx hz hne hwords
  have hlength (p : Pauli) (c : Vec2d) : (codeWord p d c).length = d * d := length_wordOf _ _ _
  refine ⟨?_, ?_, ?_, ?_⟩
  · rw [hparityX, List.map_map, List.map_map]
    refine List.map_congr_left fun c _ => ?_
    exact (rowSupport_codeRow _ d c).trans
      ((rowSupport_parityRow .x (hlength .x c)).trans (wordSupport_codeWord (by decide) d c)).symm
  · rw [hparityZ, List.map_map, List.map_map]
    refine List.map_congr_left fun c _ => ?_
    exact (rowSupport_codeRow _ d c).trans
      ((rowSupport_parityRow .z (hlength .z c)).trans (wordSupport_codeWord (by decide) d c)).symm
  · intro row hrow i
    rcases List.mem_append.mp hrow with hrow | hrow
    · obtain ⟨c, -, rfl⟩ := List.mem_map.mp hrow
      exact codeRow_distinct i
    · obtain ⟨c, -, rfl⟩ := List.mem_map.mp hrow
      exact codeRow_distinct i
  · intro step hstep i
    have hxs := (perm_sortSites d (coordsOf d orientation .amx)).nodup_iff.mpr hx.nodup
    have hzs := (perm_sortSites d (coordsOf d orientation .amz)).nodup_iff.mpr hz.nodup
    -- one row of each type at most, and not one of either
    have honeX := length_filter_map_le_one hxs (codeRow useColMajorOrder d)
      (p := fun row => decide (row.getD i 0 = step)) (by
        intro a _ b _ ha hb
        rw [decide_eq_true_eq] at ha hb
        exact (codeRow_same_step hstep ha hb).2 rfl)
    have honeZ := length_filter_map_le_one hzs (codeRow (!useColMajorOrder) d)
      (p := fun row => decide (row.getD i 0 = step)) (by
        intro a _ b _ ha hb
        rw [decide_eq_true_eq] at ha hb
        exact (codeRow_same_step hstep ha hb).2 rfl)
    rw [List.filter_append, List.length_append]
    by_contra hboth
    have hsomeX := List.exists_mem_of_length_pos (show 0 < (((sortSites d (coordsOf d orientation .amx)).map
      (codeRow useColMajorOrder d)).filter fun row => decide (row.getD i 0 = step)).length by omega)
    have hsomeZ := List.exists_mem_of_length_pos (show 0 < (((sortSites d (coordsOf d orientation .amz)).map
      (codeRow (!useColMajorOrder) d)).filter fun row => decide (row.getD i 0 = step)).length by omega)
    obtain ⟨row, hrow⟩ := hsomeX
    obtain ⟨row', hrow'⟩ := hsomeZ
    rw [List.mem_filter, List.mem_map, decide_eq_true_eq] at hrow hrow'
    obtain ⟨⟨a, ha, rfl⟩, hstepX⟩ := hrow
    obtain ⟨⟨b, hb, rfl⟩, hstepZ⟩ := hrow'
    have hsum := (codeRow_same_step hstep hstepX hstepZ).1
    have hparityA := (mem_coordsOf_amx.mp ((perm_sortSites _ _).mem_iff.mp ha)).2
    have hparityB := (mem_coordsOf_amz.mp ((perm_sortSites _ _).mem_iff.mp hb)).2
    rw [hsum] at hparityA
    exact hparityB hparityA

theorem validCode {Term : Type} (terms : SpinOpTerms Term) (h : IsGrid d orientation g) (hd : 2 ≤ d)
    (hlt : d < 65535) : ValidCode terms d g where
  count := by
    rw [h.xStabilizers_eq_map, h.zStabilizers_eq_map, List.length_map, List.length_map]
    exact length_coordsOf (by omega) orientation
  words := h.map_wordSupport terms
  commute x hx z hz := by
    rw [h.xStabilizers_eq_map] at hx
    rw [h.zStabilizers_eq_map] at hz
    obtain ⟨c, hc, rfl⟩ := List.mem_map.mp hx
    obtain ⟨c', hc', rfl⟩ := List.mem_map.mp hz
    obtain ⟨hsite, hparity⟩ := mem_coordsOf_amx.mp hc
    obtain ⟨hsite', hparity'⟩ := mem_coordsOf_amz.mp hc'
    exact even_overlap hsite hsite' (by omega)
  observables := h.exists_observables terms (by omega)
  schedules := by
    have hsize : u32 (d * d) = d * d := by
      apply u32_of_lt
      have := Nat.mul_le_mul (show d ≤ 65535 by omega) (show d ≤ 65535 by omega)
      omega
    refine ⟨_, _, ?_, ?_, fun stabilizers hperm => h.validSchedules hd hperm (xLogicalOnTopRow orientation)⟩
    · rw [getCnotScheduleX, h.xStabCoords_eq, h.dataIndices_eq, h.distance_eq, h.orientation_eq, hsize]
      exact buildCnotSchedule_eq_ok (oneType_amx d orientation) _
    · rw [getCnotScheduleZ, h.zStabCoords_eq, h.dataIndices_eq, h.distance_eq, h.orientation_eq, hsize]
      exact buildCnotSchedule_eq_ok (oneType_amz d orientation) _

end IsGrid

/-! ## Every distance -/

/-- A distance from 2 on gives a valid code if it is below 65535, and otherwise none. -/
theorem stabilizerGrid_valid_iff {Term : Type} (terms : SpinOpTerms Term) (hd : 2 ≤ d) (hlt : d < 2 ^ 32)
    (orientation : ScOrientation) :
    (∃ g, stabilizerGrid d orientation = .ok g ∧ ValidCode terms d g) ↔ d < 65535 := by
  constructor
  · rintro ⟨g, hg, -⟩
    by_contra hbig
    exact not_stabilizerGrid (by omega) hlt orientation g hg
  · intro hsmall
    obtain ⟨g, hg, hgrid⟩ := stabilizerGrid_eq_ok (by omega) hsmall orientation
    exact ⟨g, hg, hgrid.validCode terms hd hsmall⟩

def wordTerms : SpinOpTerms (List Pauli) where
  fromWord word := word
  getPauliWord word := word
  getPauliWord_fromWord _ := rfl

theorem stabilizerGrid_valid_three :
    ∃ g, stabilizerGrid 3 .zh = .ok g ∧ ValidCode wordTerms 3 g :=
  (stabilizerGrid_valid_iff wordTerms (by decide) (by decide) .zh).mpr (by decide)

theorem sweep_nil {gridLength n : Nat} (hn : 0 < n) :
    sweep gridLength (List.range n) (List.range n) (fun _ _ => some .empty) [] = .error .outOfBounds := by
  obtain ⟨m, rfl⟩ := Nat.exists_eq_succ_of_ne_zero hn.ne'
  rw [sweep, List.range_succ_eq_map, List.foldlM_cons, List.foldlM_cons]
  rfl

/-- A length of 65536 has a square of 0 in 32 bits. -/
theorem not_stabilizerGrid_valid :
    stabilizerGrid 65535 .zh = .error .outOfBounds ∧
      ¬ ∃ g, stabilizerGrid 65535 .zh = .ok g ∧ ValidCode wordTerms 65535 g := by
  have herror : stabilizerGrid 65535 .zh = .error .outOfBounds := by
    have hlength : u32 (65535 + 1) = 65536 := by decide
    have hsize : u32 (65536 * 65536) = 0 := by decide
    rw [stabilizerGrid, hlength, hsize, List.replicate_zero, generateGridRoles, sweep_nil (by decide), error_bind,
      error_bind]
  refine ⟨herror, ?_⟩
  rintro ⟨g, hg, -⟩
  rw [herror] at hg
  cases hg

end CudaqQec.SurfaceCode
