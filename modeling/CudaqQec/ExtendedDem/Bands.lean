import CudaqQec.ExtendedDem.Stitch

/-!
# A chunk as three bands of rows

Composition only ever looks at the rows of a chunk as an incoming band, an interior and an outgoing
band. `banded` reads a chunk that way, whatever the order of the bands inside `H`; `rowOrder` lists
the rows of `H` in band order, and `placeRows` sends them to consecutive rows in exactly that order
(`count_map_placeRows`).
-/

namespace CudaqQec

open Checked SparseBinaryMatrix

namespace ExtendedDem

variable {d : ExtendedDem} {f t : SeamId}

/-! ## The two seams -/

/-- No other seam carries rows: what `rejectExtraSeams` accepts. -/
def OnlySeams (d : ExtendedDem) (f t : SeamId) : Prop :=
  ∀ s ∈ d.seams, s.id = f ∨ s.id = t ∨ s.numRows = 0

theorem rejectExtraSeams_eq_ok {context : String} {u : Unit} :
    rejectExtraSeams d f t context = .ok u ↔ d.OnlySeams f t := by
  unfold rejectExtraSeams OnlySeams
  rw [forM_eq_ok]
  apply forall_congr'
  intro s
  apply imp_congr_right
  intro _
  rw [throwIf_eq_ok]
  tauto

theorem mem_of_findSeam {id : SeamId} {s : Seam} (h : d.findSeam id = some s) :
    s ∈ d.seams ∧ s.id = id := by
  refine ⟨List.mem_of_find?_eq_some h, ?_⟩
  simpa using List.find?_some h

theorem findSeam_of_mem (hnd : d.DistinctSeams) {s : Seam} (h : s ∈ d.seams) :
    d.findSeam s.id = some s := by
  unfold DistinctSeams at hnd
  unfold findSeam
  generalize d.seams = l at h hnd
  induction l with
  | nil => simp at h
  | cons x xs ih =>
    rw [List.map_cons, List.nodup_cons] at hnd
    rw [List.find?_cons]
    rcases List.mem_cons.mp h with rfl | hx
    · simp
    · have hne : ¬ x.id = s.id := fun he => hnd.1 (he ▸ List.mem_map_of_mem hx)
      simpa [hne] using ih hx hnd.2

theorem Valid.seamBand_le (h : d.Valid) (id : SeamId) :
    (d.seamBand id).1 ≤ (d.seamBand id).2 ∧ (d.seamBand id).2 ≤ d.H.numRows := by
  unfold seamBand
  cases hf : d.findSeam id with
  | none => simp
  | some s => exact h.bands s (mem_of_findSeam hf).1

theorem sum_bands_le (d : ExtendedDem) (hne : f ≠ t) (g : Nat → Nat → Nat) (hg : g 0 0 = 0) :
    g (d.seamBand t).1 (d.seamBand t).2 + g (d.seamBand f).1 (d.seamBand f).2 ≤
      (d.seams.map fun s => g s.rowBegin s.rowEnd).sum := by
  unfold seamBand findSeam
  induction d.seams with
  | nil => simp [hg]
  | cons s ss ih =>
    rw [List.map_cons, List.sum_cons, List.find?_cons, List.find?_cons]
    by_cases hf : s.id = f
    · have ht : ¬ s.id = t := fun he => hne (hf.symm.trans he)
      simp only [hf, hne, decide_true, decide_false]
      omega
    · by_cases ht : s.id = t
      · have hne' : ¬ t = f := fun he => hne he.symm
        simp only [ht, hne', decide_true, decide_false]
        omega
      · simp only [hf, ht, decide_false]
        omega

/-! ## Bands that do not overlap -/

/-- Over bands, a sum that ignores empty ones is the sum of the two that may carry rows. -/
theorem OnlySeams.sum_eq (h : d.OnlySeams f t) (hnd : d.DistinctSeams) (hne : f ≠ t) (g : Nat → Nat → Nat)
    (hg : ∀ b e, e - b = 0 → g b e = 0) :
    (d.seams.map fun s => g s.rowBegin s.rowEnd).sum =
      g (d.seamBand t).1 (d.seamBand t).2 + g (d.seamBand f).1 (d.seamBand f).2 := by
  unfold DistinctSeams at hnd
  unfold OnlySeams at h
  unfold seamBand findSeam
  have hg0 : g 0 0 = 0 := hg 0 0 rfl
  generalize d.seams = l at h hnd
  induction l with
  | nil => simp [hg0]
  | cons s ss ih =>
    rw [List.map_cons, List.nodup_cons] at hnd
    have ih := ih (fun x hx => h x (by simp [hx])) hnd.2
    have habs : ∀ id, s.id = id → ss.find? (fun x => decide (x.id = id)) = none := by
      rintro id rfl
      rw [List.find?_eq_none]
      intro x hx
      have : x.id ≠ s.id := fun he => hnd.1 (he ▸ List.mem_map_of_mem hx)
      simpa using this
    rw [List.map_cons, List.sum_cons, ih, List.find?_cons, List.find?_cons]
    by_cases hf : s.id = f
    · have ht : ¬ s.id = t := fun he => hne (hf.symm.trans he)
      simp [hf, hne, habs f hf, hg0, Nat.add_comm]
    · by_cases ht : s.id = t
      · have hne' : ¬ t = f := fun he => hne he.symm
        simp [ht, hne', habs t ht, hg0]
      · have hz : s.numRows = 0 := by
          rcases h s (by simp) with h | h | h
          · exact absurd h hf
          · exact absurd h ht
          · exact h
        simp [hf, ht, hg _ _ hz]

/-- Rows outside both bands are interior, and the other way round. -/
theorem OnlySeams.any_covers (h : d.OnlySeams f t) (hnd : d.DistinctSeams) (r : Nat) :
    (d.seams.any fun s => s.covers r) = true ↔
      ((d.seamBand t).1 ≤ r ∧ r < (d.seamBand t).2) ∨
        ((d.seamBand f).1 ≤ r ∧ r < (d.seamBand f).2) := by
  have hband : ∀ s ∈ d.seams, d.seamBand s.id = (s.rowBegin, s.rowEnd) := by
    intro s hs
    rw [seamBand, findSeam_of_mem hnd hs]
  have hmem : ∀ id, (d.seamBand id).1 ≤ r ∧ r < (d.seamBand id).2 →
      ∃ s ∈ d.seams, s.covers r = true := by
    intro id hr
    unfold seamBand at hr
    cases hf : d.findSeam id with
    | none => simp [hf] at hr
    | some s =>
      rw [hf] at hr
      exact ⟨s, (mem_of_findSeam hf).1, by simpa [Seam.covers] using hr⟩
  rw [List.any_eq_true]
  constructor
  · rintro ⟨s, hs, hc⟩
    simp only [Seam.covers, Bool.and_eq_true, decide_eq_true_eq] at hc
    rcases h s hs with hid | hid | hz
    · rw [← hid, hband s hs]
      exact .inr hc
    · rw [← hid, hband s hs]
      exact .inl hc
    · unfold Seam.numRows at hz
      omega
  · rintro (hr | hr)
    · exact hmem t hr
    · exact hmem f hr

/-- The bands of two different seams do not overlap. -/
theorem Valid.seamBand_disjoint (h : d.Valid) (hne : f ≠ t) {r : Nat}
    (hf : (d.seamBand f).1 ≤ r ∧ r < (d.seamBand f).2) :
    ¬ ((d.seamBand t).1 ≤ r ∧ r < (d.seamBand t).2) := by
  intro ht
  unfold seamBand at hf ht
  cases hsf : d.findSeam f with
  | none => simp [hsf] at hf
  | some s =>
    cases hst : d.findSeam t with
    | none => simp [hst] at ht
    | some s' =>
      rw [hsf] at hf
      rw [hst] at ht
      obtain ⟨hs, hsid⟩ := mem_of_findSeam hsf
      obtain ⟨hs', hsid'⟩ := mem_of_findSeam hst
      have hss : s ≠ s' := by
        rintro rfl
        exact hne (hsid.symm.trans hsid')
      have hsymm : Std.Symm Seam.Disjoint := ⟨fun _ _ h => h.symm⟩
      have hdis := h.disjoint.forall hs hs' hss
      unfold Seam.Disjoint Seam.numRows at hdis
      simp only at hf ht
      omega

/-! ## The rows in band order -/

def bandRowList (d : ExtendedDem) (id : SeamId) : List Nat :=
  (List.range (d.seamRowsOrZero id)).map ((d.seamBand id).1 + ·)

/-- The rows of `H`: incoming band, interior, outgoing band. -/
def rowOrder (d : ExtendedDem) (f t : SeamId) : List Nat :=
  d.bandRowList t ++ (interiorRowList d.H.numRows d.seams ++ d.bandRowList f)

def banded (d : ExtendedDem) (f t : SeamId) : Banded where
  width := d.H.numCols
  lead := (d.bandRowList t).map d.H.count
  interior := (interiorRowList d.H.numRows d.seams).map d.H.count
  trail := (d.bandRowList f).map d.H.count

theorem rows_banded : (d.banded f t).rows = (d.rowOrder f t).map d.H.count := by
  simp [Banded.rows, banded, rowOrder]

@[simp] theorem length_bandRowList (id : SeamId) :
    (d.bandRowList id).length = d.seamRowsOrZero id := by
  simp [bandRowList]

@[simp] theorem length_banded_lead : (d.banded f t).lead.length = d.seamRowsOrZero t := by
  simp [banded]

@[simp] theorem length_banded_trail : (d.banded f t).trail.length = d.seamRowsOrZero f := by
  simp [banded]

theorem Valid.length_banded_interior (h : d.Valid) :
    (d.banded f t).interior.length = d.numInteriorRows := by
  simp [banded, h.numInteriorRows]

theorem mem_bandRowList {id : SeamId} {r : Nat} :
    r ∈ d.bandRowList id ↔ (d.seamBand id).1 ≤ r ∧ r < (d.seamBand id).2 := by
  simp only [bandRowList, seamRowsOrZero, List.mem_map, List.mem_range]
  constructor
  · rintro ⟨k, hk, rfl⟩
    omega
  · intro h
    exact ⟨r - (d.seamBand id).1, by omega, by omega⟩

theorem nodup_bandRowList (id : SeamId) : (d.bandRowList id).Nodup :=
  List.nodup_range.map fun _ _ => Nat.add_left_cancel

theorem Valid.nodup_rowOrder (h : d.Valid) (hnd : d.DistinctSeams) (ho : d.OnlySeams f t) (hne : f ≠ t) :
    (d.rowOrder f t).Nodup := by
  have hint : (interiorRowList d.H.numRows d.seams).Nodup := List.nodup_range.filter _
  have hcov : ∀ r, r ∈ interiorRowList d.H.numRows d.seams →
      ¬ (r ∈ d.bandRowList t ∨ r ∈ d.bandRowList f) := by
    intro r hr hb
    rw [mem_bandRowList, mem_bandRowList, ← ho.any_covers hnd] at hb
    obtain ⟨s, hs, hc⟩ := List.any_eq_true.mp hb
    have := (mem_interiorRowList.mp hr).2 s hs
    simp_all
  rw [rowOrder, List.nodup_append', List.nodup_append']
  refine ⟨nodup_bandRowList t, ⟨hint, nodup_bandRowList f, ?_⟩, ?_⟩
  · intro r hr hf
    exact hcov r hr (.inr hf)
  · intro r ht hr
    rcases List.mem_append.mp hr with hr | hf
    · exact hcov r hr (.inl ht)
    · exact h.seamBand_disjoint hne (mem_bandRowList.mp hf) (mem_bandRowList.mp ht)

theorem Valid.length_rowOrder (h : d.Valid) (hnd : d.DistinctSeams) (ho : d.OnlySeams f t) (hne : f ≠ t) :
    (d.rowOrder f t).length = d.H.numRows := by
  have hsum := ho.sum_eq hnd hne (fun b e => e - b) (fun _ _ => id)
  have htot := h.seamTotal_add
  unfold seamTotal at htot
  unfold Seam.numRows at htot
  simp only [rowOrder, List.length_append, length_bandRowList, seamRowsOrZero]
  omega

/-! ## The rows of a valid chunk -/

theorem Valid.rows_eq (h : d.Valid) (hnd : d.DistinctSeams) (ho : d.OnlySeams f t) (hne : f ≠ t) :
    d.seamRowsOrZero t + d.numInteriorRows + d.seamRowsOrZero f = d.H.numRows := by
  have hlen := h.length_rowOrder hnd ho hne
  simp only [rowOrder, List.length_append, length_bandRowList, ← h.numInteriorRows] at hlen
  omega

/-- The three bands store no more than `H` does. -/
theorem Valid.numNnz_le (h : d.Valid) (hne : f ≠ t) :
    ((d.bandRowList t).map d.H.rowNnz).sum +
      ((interiorRowList d.H.numRows d.seams).map d.H.rowNnz).sum +
        ((d.bandRowList f).map d.H.rowNnz).sum ≤ d.H.numNnz := by
  have hsum := d.sum_bands_le hne
    (fun b e => ((List.range (e - b)).map fun k => d.H.rowNnz (b + k)).sum) rfl
  have hrows := sum_rows_eq d.H.rowNnz h.bands h.disjoint
  unfold Seam.numRows at hrows
  rw [numNnz_eq_sum, hrows]
  simp only [bandRowList, seamRowsOrZero, List.map_map, Function.comp_def]
  omega

/-! ## Where `placeRows` sends a row -/

private def outside (t f : Nat × Nat) (r : Nat) : Bool :=
  ¬ (t.1 ≤ r ∧ r < t.2) ∧ ¬ (f.1 ≤ r ∧ r < f.2)

private def placedRow (t f : Nat × Nat) (tb ib fb r : Nat) : Nat :=
  if t.1 ≤ r ∧ r < t.2 then tb + (r - t.1)
  else if f.1 ≤ r ∧ r < f.2 then fb + (r - f.1)
  else ib + ((List.range r).filter (outside t f)).length

private theorem foldl_placeStep (t f : Nat × Nat) (tb ib fb n : Nat) :
    (List.range n).foldl (placeStep t f tb ib fb) ([], 0) =
      ((List.range n).map (fun r => u32 (placedRow t f tb ib fb r)),
        ((List.range n).filter (outside t f)).length) := by
  induction n with
  | zero => rfl
  | succ n ih =>
    rw [List.range_succ, List.foldl_append, ih, List.map_append, List.filter_append]
    simp only [List.foldl_cons, List.foldl_nil, placeStep, List.map_cons, List.map_nil,
      List.length_append, placedRow]
    by_cases ht : t.1 ≤ n ∧ n < t.2
    · have : outside t f n = false := by simp [outside, ht]
      simp [ht, this]
    · by_cases hf : f.1 ≤ n ∧ n < f.2
      · have : outside t f n = false := by simp [outside, hf]
        simp [ht, hf, this]
      · have : outside t f n = true := by simp [outside, ht, hf]
        simp [ht, hf, this]

private theorem getElem?_filter_range (p : Nat → Bool) {n r : Nat} (h : r < n) (hp : p r = true) :
    ((List.range n).filter p)[((List.range r).filter p).length]? = some r := by
  obtain ⟨k, rfl⟩ : ∃ k, n = r + (1 + k) := ⟨n - r - 1, by omega⟩
  rw [List.range_add, List.range_add, List.map_append, List.filter_append, List.filter_append]
  simp [List.range_one, hp]

/-- The place of a row in band order. -/
private theorem getElem?_rowOrder (h : d.Valid) (hnd : d.DistinctSeams) (ho : d.OnlySeams f t) {r : Nat}
    (hr : r < d.H.numRows) :
    (d.rowOrder f t)[placedRow (d.seamBand t) (d.seamBand f) 0 (d.seamRowsOrZero t)
      (d.seamRowsOrZero t + d.numInteriorRows) r]? = some r := by
  have hband : ∀ id, (d.seamBand id).1 ≤ r ∧ r < (d.seamBand id).2 →
      (d.bandRowList id)[r - (d.seamBand id).1]? = some r := by
    intro id hb
    have hlt : r - (d.seamBand id).1 < d.seamRowsOrZero id := by
      unfold seamRowsOrZero
      omega
    simp only [bandRowList, List.getElem?_map, List.getElem?_range hlt, Option.map_some]
    congr 1
    omega
  -- the interior is what lies in neither band
  have hfilter : interiorRowList d.H.numRows d.seams =
      (List.range d.H.numRows).filter (outside (d.seamBand t) (d.seamBand f)) := by
    unfold interiorRowList
    apply List.filter_congr
    intro x _
    rw [Bool.eq_iff_iff, Bool.not_eq_true', ← Bool.not_eq_true, ho.any_covers hnd]
    simp only [outside, decide_eq_true_eq, not_or]
  have hli := h.numInteriorRows
  unfold placedRow rowOrder
  -- the row lies in the leading band, in the trailing one, or in the interior
  split_ifs with ht hf
  · have := hband t ht
    have hlt : r - (d.seamBand t).1 < (d.bandRowList t).length := by
      rw [length_bandRowList, seamRowsOrZero]
      omega
    rw [Nat.zero_add, List.getElem?_append_left hlt, this]
  · rw [List.getElem?_append_right (by simp; omega), List.getElem?_append_right (by simp; omega),
      ← hband f hf]
    congr 1
    simp only [length_bandRowList]
    omega
  · have hout : outside (d.seamBand t) (d.seamBand f) r = true := by simp [outside, ht, hf]
    have hget := getElem?_filter_range _ hr hout
    have hlt := (List.getElem?_eq_some_iff.mp hget).1
    rw [List.getElem?_append_right (by simp), length_bandRowList, Nat.add_sub_cancel_left, hfilter,
      List.getElem?_append_left hlt, hget]

private theorem placedRow_add (t f : Nat × Nat) (ib fb k r : Nat) :
    placedRow t f k (k + ib) (k + fb) r = k + placedRow t f 0 ib fb r := by
  unfold placedRow
  split_ifs <;> omega

/-- Moving a column through `placeRows` lists, in band order from row `base` on, what the column
lists in each row. -/
theorem Valid.count_map_placeRows (h : d.Valid) (hd : d.DistinctSeams) (ho : d.OnlySeams f t)
    (hne : f ≠ t) {base : Nat} (hfit : base + d.H.numRows ≤ 2 ^ 32) {col : List Nat} (hcol : ∀ r ∈ col, r < d.H.numRows)
    (R : Nat) :
    (col.map ((placeRows d f t base (base + d.seamRowsOrZero t)
        (base + d.seamRowsOrZero t + d.numInteriorRows)).getD · 0)).count R =
      if R < base then 0 else (((d.rowOrder f t)[R - base]?).map col.count).getD 0 := by
  have hnd := h.nodup_rowOrder hd ho hne
  have hlen := h.length_rowOrder hd ho hne
  -- A row of the chunk lands `base` below its place in band order.
  have hplace : ∀ r < d.H.numRows, ∃ i, i < d.H.numRows ∧ (d.rowOrder f t)[i]? = some r ∧
      (placeRows d f t base (base + d.seamRowsOrZero t)
        (base + d.seamRowsOrZero t + d.numInteriorRows)).getD r 0 = base + i := by
    intro r hr
    have hget := getElem?_rowOrder h hd ho hr
    have hlt := (List.getElem?_eq_some_iff.mp hget).1
    rw [hlen] at hlt
    refine ⟨_, hlt, hget, ?_⟩
    rw [placeRows, foldl_placeStep, getD_map_range, if_pos hr, Nat.add_assoc base, placedRow_add]
    exact u32_of_lt (by omega)
  rw [List.count_eq_countP, List.countP_map]
  split_ifs with hR
  · rw [List.countP_eq_zero]
    intro r hr
    obtain ⟨i, -, -, hi⟩ := hplace r (hcol r hr)
    simp only [Function.comp_apply, hi, beq_iff_eq]
    omega
  · cases hget : (d.rowOrder f t)[R - base]? with
    | none =>
      rw [Option.map_none, Option.getD_none, List.countP_eq_zero]
      intro r hr
      obtain ⟨i, hlt, -, hi⟩ := hplace r (hcol r hr)
      have := List.getElem?_eq_none_iff.mp hget
      simp only [Function.comp_apply, hi, beq_iff_eq]
      omega
    | some r₀ =>
      rw [Option.map_some, Option.getD_some, List.count_eq_countP]
      apply List.countP_congr
      intro r hr
      obtain ⟨i, hlt, hri, hi⟩ := hplace r (hcol r hr)
      simp only [Function.comp_apply, hi, beq_iff_eq]
      constructor
      · intro he
        have : i = R - base := by omega
        rw [this, hget] at hri
        exact (Option.some.inj hri).symm
      · rintro rfl
        have := (List.getElem?_inj (hlen ▸ hlt) hnd).mp (hri.trans hget.symm)
        omega

end ExtendedDem

end CudaqQec
