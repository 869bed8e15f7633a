import CudaqQec.ExtendedDem.Chain

/-!
# Stitching a chain one chunk at a time

`dem_stitch_all` claims the result a left fold of `dem_stitch` would give. The fold carries a chunk
that reads, band by band, as the composition of the chunks so far (`Reads`), and each step extends it
by one chunk (`Reads.step`). It returns as long as no accumulator without faults has rows — such an
accumulator loses them and is rejected by the next step — the rows of the whole chain fit, and no band
that a step cuts out has the `2 ^ 32 - 1` rows `from_nested_csr` has no pointer array for.

* `Reads.exists_step`, `exists_stitchFold`: when the fold returns.
* `sameChunk_of_assembled`: what it returns against the assembled chain.
-/

namespace CudaqQec

open Checked SparseBinaryMatrix ExtendedDem

variable {a b c x d r acc : ExtendedDem} {cs p : List ExtendedDem} {f t : SeamId}

/-! ## The result of one step -/

theorem seamRowsOrZero_pairSeams_to {lead x n : Nat} (hs : d.seams = pairSeams f t lead x n) :
    d.seamRowsOrZero t = lead := by
  rw [seamRowsOrZero, seamBand_pairSeams_to hs, Nat.sub_zero]

theorem seamRowsOrZero_pairSeams_from {lead x n : Nat} (hne : f ≠ t)
    (hs : d.seams = pairSeams f t lead x n) : d.seamRowsOrZero f = n := by
  rw [seamRowsOrZero, seamBand_pairSeams_from hne hs, Nat.add_sub_cancel_left]

theorem seamTags_pairSeams_to {x n : Nat} {tagsTo tagsFrom : List Nat}
    (hs : d.seams = pairSeams f t tagsTo.length x n) (ht : d.tags = tagsTo ++ tagsFrom) :
    d.seamTags t = tagsTo := by
  have hhas : d.hasSeam t = true := by simp [hasSeam, findSeam, hs, pairSeams]
  have hoff : tagOffset d t = 0 := by simp [tagOffset, hs, pairSeams]
  rw [seamTags, extractSeamTags, if_pos hhas, hoff, seamRowsOrZero_pairSeams_to hs, ht,
    List.drop_zero, List.take_left]

theorem hasSeam_pairSeams_from {lead x n : Nat} (hs : d.seams = pairSeams f t lead x n) :
    d.hasSeam f = true := by
  by_cases h : t = f <;> simp [hasSeam, findSeam, hs, pairSeams, h]

theorem seamTags_pairSeams_from {x : Nat} {tagsTo tagsFrom : List Nat} (hne : f ≠ t)
    (hs : d.seams = pairSeams f t tagsTo.length x tagsFrom.length)
    (ht : d.tags = tagsTo ++ tagsFrom) : d.seamTags f = tagsFrom := by
  have hne' : ¬ t = f := fun he => hne he.symm
  have hoff : tagOffset d f = tagsTo.length := by
    simp [tagOffset, hs, pairSeams, hne', Seam.numRows]
  rw [seamTags, extractSeamTags, if_pos (hasSeam_pairSeams_from hs), hoff,
    seamRowsOrZero_pairSeams_from hne hs, ht, List.drop_left, List.take_length]

namespace IsStitch

theorem seamTags_to (h : IsStitch a b f t r) : r.seamTags t = a.seamTags t :=
  seamTags_pairSeams_to (by rw [h.seams, h.stitchable.left.length_seamTags]) h.tags

theorem seamTags_from (h : IsStitch a b f t r) : r.seamTags f = b.seamTags f :=
  seamTags_pairSeams_from h.ne
    (by rw [h.seams, h.stitchable.left.length_seamTags, h.stitchable.right.length_seamTags]) h.tags

theorem only (h : IsStitch a b f t r) : r.OnlySeams f t := onlySeams_of_pairSeams h.seams

/-- The seams of a stitched chunk bound the bands of the composition. -/
theorem seams_eq (h : IsStitch a b f t r) :
    r.seams = pairSeams f t ((a.banded f t).stitch (b.banded f t)).lead.length
      ((a.banded f t).stitch (b.banded f t)).trailRow
      ((a.banded f t).stitch (b.banded f t)).trail.length := by
  have hs := h.stitchable
  rw [h.seams]
  simp only [Banded.stitch, Banded.trailRow, List.length_map, List.length_append,
    List.length_zipWith, length_banded_lead, length_banded_trail, hs.left.length_banded_interior,
    hs.right.length_banded_interior, hs.width, Nat.min_self]
  congr 1
  omega

theorem rows_of_valid (h : IsStitch a b f t r) (hv : r.Valid)
    (hz : a.numFaults + b.numFaults = 0) : stitchRows a b f t = 0 := by
  have hrows := h.H.rows
  rw [if_pos hz] at hrows
  have hnum : r.H.numRows = 0 := by rw [← length_rowCounts, hrows]; rfl
  have hlast := (hv.bands _ (by rw [h.seams]; exact List.mem_cons_of_mem _ (List.mem_singleton_self _))).2
  simp only [hnum, Nat.le_zero] at hlast
  exact hlast

/-- The bands of the result, unless it lost its rows. -/
theorem banded_eq (h : IsStitch a b f t r)
    (hz : a.numFaults + b.numFaults = 0 → stitchRows a b f t = 0) :
    r.banded f t = (a.banded f t).stitch (b.banded f t) := by
  have hs := h.stitchable
  apply banded_eq_of_rows h.ne
  · rw [h.H.rows]
    split
    · next h0 =>
      rw [eq_comm, ← List.length_eq_zero_iff, hs.length_rows, hz h0]
    · rfl
  · rw [h.H.cols, ← hs.left.cols, ← hs.right.cols]
    rfl
  · exact h.seams_eq

/-- The result is a valid chunk, unless it lost its rows. -/
theorem valid (h : IsStitch a b f t r)
    (hz : a.numFaults + b.numFaults = 0 → stitchRows a b f t = 0)
    (ha : a.O.numCols = a.numFaults) (hb : b.O.numCols = b.numFaults) : r.Valid := by
  have hs := h.stitchable
  have hrows : r.H.numRows = stitchRows a b f t := by
    rw [← length_rowCounts, h.H.rows]
    split
    · next h0 => rw [hz h0]; rfl
    · exact hs.length_rows
  have hle : a.seamRowsOrZero t ≤ stitchRows a b f t := by
    unfold stitchRows
    omega
  refine ⟨h.H.cols.trans h.numFaults.symm, .inr ?_, ?_, ?_, ?_⟩
  · rw [(hcat_groups h.O).2.2.1, h.numFaults, ha, hb]
  · intro s hmem
    rw [h.seams, pairSeams, List.mem_cons, List.mem_singleton] at hmem
    rcases hmem with rfl | rfl
    · exact ⟨Nat.zero_le _, by rw [hrows]; exact hle⟩
    · exact ⟨Nat.le_add_right _ _, by rw [hrows]; exact le_refl _⟩
  · rw [h.seams, pairSeams, List.pairwise_pair]
    refine .inr (.inr (.inl ?_))
    simp only
    omega
  · rw [h.tags, List.length_append, hs.left.length_seamTags, hs.right.length_seamTags, seamTotal,
      h.seams]
    simp [pairSeams, Seam.numRows]

end IsStitch

/-! ## The accumulator -/

/-- A left fold of `dem_stitch` over a non-empty chain. -/
def stitchFold (f t : SeamId) : List ExtendedDem → Except Error ExtendedDem
  | [] => .error (.invalidArgument "dem_stitch: no chunks")
  | c :: cs => cs.foldlM (fun acc c => demStitch acc c f t) c

/-- `acc` reads as the composition of the chunks `p`. -/
structure Reads (f t : SeamId) (p : List ExtendedDem) (acc : ExtendedDem) : Prop where
  valid : acc.Valid
  only : acc.OnlySeams f t
  banded : acc.banded f t = bandedChain f t p
  nnz : acc.H.numNnz ≤ (p.map fun c => c.H.numNnz).sum
  nestedO : acc.O.toNestedCsc = p.flatMap fun c => c.O.toNestedCsc
  obs : acc.numObservables = (p.headD .empty).numObservables
  rates : acc.errorRates = p.flatMap errorRates
  tagsTo : acc.seamTags t = (p.headD .empty).seamTags t
  tagsFrom : acc.seamTags f = (p.getLastD .empty).seamTags f
  hasFrom : (p.getLastD .empty).hasSeam f = true → acc.hasSeam f = true

theorem reads_single (hv : c.Valid) (ho : c.OnlySeams f t) : Reads f t [c] c where
  valid := hv
  only := ho
  banded := rfl
  nnz := by simp
  nestedO := by simp
  obs := rfl
  rates := by simp
  tagsTo := rfl
  tagsFrom := rfl
  hasFrom := id

theorem bandedChain_concat (hp : p ≠ []) :
    bandedChain f t (p ++ [x]) = (bandedChain f t p).stitch (x.banded f t) := by
  induction p with
  | nil => exact absurd rfl hp
  | cons c p ih =>
    cases p with
    | nil => rfl
    | cons c' p =>
      have ih := ih (by simp)
      rw [List.cons_append, List.cons_append, bandedChain, bandedChain, ← List.cons_append, ih,
        Banded.stitch_assoc]

theorem headD_append (hp : p ≠ []) : (p ++ [x]).headD .empty = p.headD .empty := by
  cases p with
  | nil => exact absurd rfl hp
  | cons c p => rfl

theorem nestedO_of_csc {m : SparseBinaryMatrix} (h : m.layout = .csc) : m.toNestedCsc = m.groups := by
  simp [toNestedCsc, h]

theorem Reads.step (h : Reads f t p acc) (hp : p ≠ []) (hr : IsStitch acc x f t r) (hv : r.Valid) :
    Reads f t (p ++ [x]) r where
  valid := hv
  only := hr.only
  banded := by
    rw [hr.banded_eq (hr.rows_of_valid hv), h.banded, bandedChain_concat hp]
  nnz := by
    have hnnz := hr.H.nnz
    have hacc := h.nnz
    rw [List.map_append, List.sum_append, List.map_cons, List.map_nil, List.sum_singleton]
    omega
  nestedO := by
    rw [nestedO_of_csc (hcat_groups hr.O).1, (hcat_groups hr.O).2.2.2, h.nestedO]
    simp
  obs := by
    rw [headD_append hp, ← h.obs]
    exact (hcat_groups hr.O).2.1
  rates := by
    rw [hr.rates, h.rates]
    simp
  tagsTo := by rw [hr.seamTags_to, h.tagsTo, headD_append hp]
  tagsFrom := by rw [hr.seamTags_from, List.getLastD_concat]
  hasFrom := fun _ => hasSeam_pairSeams_from hr.seams

theorem stitchFold_concat (hp : p ≠ []) :
    stitchFold f t (p ++ [x]) = (stitchFold f t p >>= fun acc => demStitch acc x f t) := by
  cases p with
  | nil => exact absurd rfl hp
  | cons c p =>
    rw [List.cons_append, stitchFold, stitchFold, List.foldlM_append]
    cases p.foldlM (fun acc c => demStitch acc c f t) c with
    | error e => rfl
    | ok acc => simp

/-! ## Running the fold -/

theorem startRow_concat : startRow t (p ++ [x]) =
    startRow t p + (x.seamRowsOrZero t + x.numInteriorRows) := by
  simp [startRow]

theorem chainFaults_concat : chainFaults (p ++ [x]) = chainFaults p + x.numFaults := by
  simp [chainFaults]

theorem ChainValid.init (h : ChainValid f t (p ++ [x])) (hp : p ≠ []) : ChainValid f t p where
  valid c hc := h.valid c (by simp [hc])
  only c hc := h.only c (by simp [hc])
  obs c hc := by
    rw [h.obs c (by simp [hc]), headD_append hp]
  boundary := h.boundary.left_of_append

/-- The boundary between the chunks so far and the next one. -/
theorem ChainValid.last_boundary (h : ChainValid f t (p ++ [x])) (hp : p ≠ []) :
    Boundary f t (p.getLastD .empty) x := by
  have hlast : p.getLastD .empty = p.getLast hp := by
    rw [List.getLastD_eq_getLast?, List.getLast?_eq_some_getLast hp, Option.getD_some]
  rw [hlast]
  have hb := h.boundary
  rw [List.isChain_append] at hb
  exact hb.2.2 _ (List.getLast_mem_getLast? hp) x (by simp)

theorem chainRows_concat_ge (h : ChainValid f t (p ++ [x])) (hp : p ≠ []) :
    chainRows f t p ≤ chainRows f t (p ++ [x]) := by
  have hb := (h.last_boundary hp).width
  rw [chainRows, chainRows, startRow_concat, List.getLastD_concat]
  omega

namespace Reads

theorem numFaults_eq (h : Reads f t p acc) (hc : ChainValid f t p) (hp : p ≠ []) :
    acc.numFaults = chainFaults p := by
  obtain ⟨c, cs, rfl⟩ := List.exists_cons_of_ne_nil hp
  rw [← h.valid.cols, ← hc.width, ← h.banded]
  rfl

theorem rows_eq (h : Reads f t p acc) (hc : ChainValid f t p) (hp : p ≠ []) :
    acc.seamRowsOrZero t + acc.numInteriorRows = startRow t p ∧
      acc.seamRowsOrZero f = (p.getLastD .empty).seamRowsOrZero f := by
  obtain ⟨c, cs, rfl⟩ := List.exists_cons_of_ne_nil hp
  have htr := hc.trailRow
  have hl := length_bandedChain_trail f t c cs
  rw [← h.banded] at htr hl
  rw [Banded.trailRow, length_banded_lead, h.valid.length_banded_interior] at htr
  exact ⟨htr, by rw [← hl, length_banded_trail]⟩

theorem lead_eq (h : Reads f t p acc) (hp : p ≠ []) :
    acc.seamRowsOrZero t = (p.headD .empty).seamRowsOrZero t := by
  obtain ⟨c, cs, rfl⟩ := List.exists_cons_of_ne_nil hp
  have hlen := length_bandedChain_lead f t c cs
  rw [← h.banded, length_banded_lead] at hlen
  exact hlen

/-- The rows one more step yields. -/
theorem stitchRows_eq (h : Reads f t p acc) (hc : ChainValid f t (p ++ [x])) (hp : p ≠ []) :
    stitchRows acc x f t = chainRows f t (p ++ [x]) := by
  obtain ⟨h1, h2⟩ := h.rows_eq (hc.init hp) hp
  have hb := (hc.last_boundary hp).width
  rw [stitchRows, chainRows, startRow_concat, List.getLastD_concat]
  omega

/-- The next chunk can be stitched on. -/
theorem stitchable (h : Reads f t p acc) (hc : ChainValid f t (p ++ [x])) (hp : p ≠ [])
    (hfaults : chainFaults (p ++ [x]) < 2 ^ 32) : Stitchable acc x f t := by
  have hb := hc.last_boundary hp
  exact
    { left := h.valid
      right := hc.valid x (by simp)
      obs := by
        rw [h.obs, hc.obs x (by simp), headD_append hp]
      hasFrom := h.hasFrom hb.hasFrom
      hasTo := hb.hasTo
      onlyLeft := h.only
      onlyRight := hc.only x (by simp)
      width := by rw [(h.rows_eq (hc.init hp) hp).2, hb.width]
      tags := by rw [h.tagsFrom, hb.tags]
      faults := by rw [h.numFaults_eq (hc.init hp) hp, ← chainFaults_concat]; exact hfaults }

end Reads

/-! ## Room for the fold -/

def chainObsNnz (cs : List ExtendedDem) : Nat := (cs.map fun c => c.O.numNnz).sum

/-- The stored indices of a chain fit in `uint32_t`. -/
structure Fits (cs : List ExtendedDem) : Prop where
  faults : chainFaults cs < uint32Max
  nnz : (cs.map fun c => c.H.numNnz).sum < 2 ^ 32
  nnzO : chainObsNnz cs < 2 ^ 32

theorem Fits.init (h : Fits (p ++ [x])) : Fits p := by
  obtain ⟨h1, h2, h3⟩ := h
  simp only [chainFaults, chainObsNnz, List.map_append, List.sum_append] at h1 h2 h3
  exact ⟨by rw [chainFaults]; omega, by omega, by rw [chainObsNnz]; omega⟩

theorem storedCount_flatMap_O (l : List ExtendedDem) :
    storedCount (l.flatMap fun c => c.O.toNestedCsc) = chainObsNnz l := by
  induction l with
  | nil => rfl
  | cons c l ih =>
    rw [List.flatMap_cons, storedCount_append, ih, storedCount_toNestedCsc]
    simp [chainObsNnz]

theorem Reads.numNnz_O (h : Reads f t p acc) : acc.O.numNnz = chainObsNnz p := by
  rw [← storedCount_toNestedCsc, h.nestedO, storedCount_flatMap_O]

theorem Reads.numCols_O (h : Reads f t p acc) (hO : ∀ c ∈ p, c.O.numCols = c.numFaults) :
    acc.O.numCols = chainFaults p := by
  have hflat : ∀ l : List ExtendedDem, (∀ c ∈ l, c.O.numCols = c.numFaults) →
      (l.flatMap fun c => c.O.toNestedCsc).length = chainFaults l := by
    intro l hl
    induction l with
    | nil => rfl
    | cons c l ih =>
      have ih := ih fun c' hc' => hl c' (by simp [hc'])
      rw [List.flatMap_cons, List.length_append, ih, length_toNestedCsc, hl c (by simp)]
      simp [chainFaults]
  rw [← length_toNestedCsc, h.nestedO, hflat p hO]

/-- No two or more leading chunks have rows without having a fault. -/
def RowsHaveFaults (f t : SeamId) (cs : List ExtendedDem) : Prop :=
  ∀ k, 2 ≤ k → k ≤ cs.length → chainFaults (cs.take k) = 0 → chainRows f t (cs.take k) = 0

theorem RowsHaveFaults.init (h : RowsHaveFaults f t (p ++ [x])) : RowsHaveFaults f t p := by
  intro k h2 hk
  have := h k h2 (by simp; omega)
  rwa [List.take_append_of_le_length hk] at this

theorem RowsHaveFaults.whole (h : RowsHaveFaults f t cs) (hlen : 2 ≤ cs.length)
    (hz : chainFaults cs = 0) : chainRows f t cs = 0 := by
  have := h cs.length hlen (le_refl _)
  rw [List.take_length] at this
  exact this hz

/-! ## Room for one step -/

/-- The bands that stitching `x` to the chunks `p` cuts out leave room for a pointer array each. -/
structure StepFits (f t : SeamId) (p : List ExtendedDem) (x : ExtendedDem) : Prop where
  lead : (p.headD .empty).seamRowsOrZero t < uint32Max
  interior : startRow t p - (p.headD .empty).seamRowsOrZero t < uint32Max
  next : BandsFit f t x

/-- No step of the fold cuts out a band of `2 ^ 32 - 1` rows. -/
def BandsLeaveRoom (f t : SeamId) (cs : List ExtendedDem) : Prop :=
  ∀ p x, p ≠ [] → p ++ [x] <+: cs → StepFits f t p x

theorem BandsLeaveRoom.init (h : BandsLeaveRoom f t (p ++ [x])) : BandsLeaveRoom f t p :=
  fun p' x' hp' hpre => h p' x' hp' (hpre.trans (List.prefix_append p [x]))

theorem BandsLeaveRoom.concat (h : BandsLeaveRoom f t p) (hx : StepFits f t p x) :
    BandsLeaveRoom f t (p ++ [x]) := by
  intro p' x' hp' hpre
  rcases List.prefix_concat_iff.mp hpre with heq | hpre
  · obtain ⟨rfl, hxx⟩ := List.append_inj' heq rfl
    cases hxx
    exact hx
  · exact h p' x' hp' hpre

theorem bandsLeaveRoom_single : BandsLeaveRoom f t [x] := by
  intro p' x' hp' hpre
  have hlen := hpre.length_le
  have hpos := List.length_pos_iff.mpr hp'
  rw [List.length_append, List.length_singleton, List.length_singleton] at hlen
  omega

/-- The bands of the accumulator and of the next chunk. -/
theorem Reads.stepFits_iff (h : Reads f t p acc) (hc : ChainValid f t (p ++ [x])) (hp : p ≠ []) :
    StepFits f t p x ↔ BandsFit f t acc ∧ BandsFit f t x := by
  obtain ⟨hstart, htrail⟩ := h.rows_eq (hc.init hp) hp
  have hwidth := (hc.last_boundary hp).width
  have hlead : acc.seamRowsOrZero t = (p.headD .empty).seamRowsOrZero t := h.lead_eq hp
  constructor
  · rintro ⟨h1, h2, h3⟩
    refine ⟨⟨by rwa [hlead], by omega, ?_⟩, h3⟩
    rw [htrail, hwidth]
    exact h3.lead
  · rintro ⟨⟨h1, h2, -⟩, h3⟩
    exact ⟨by rwa [← hlead], by omega, h3⟩

/-! ## The fold, step by step -/

theorem Reads.exists_step (h : Reads f t p acc) (hne : f ≠ t) (hc : ChainValid f t (p ++ [x]))
    (hp : p ≠ []) (hrows : chainRows f t (p ++ [x]) < 2 ^ 32) (hbands : StepFits f t p x)
    (hfit : Fits (p ++ [x])) (hO : ∀ c ∈ p ++ [x], c.O.numCols = c.numFaults) :
    ∃ r, demStitch acc x f t = .ok r := by
  have hnnz := hfit.nnz
  have hnnzO := hfit.nnzO
  have hfaults := hfit.faults
  have hAO := h.numCols_O fun c hc' => hO c (by simp [hc'])
  have hxO := hO x (by simp)
  simp only [List.map_append, List.sum_append, List.map_cons, List.map_nil, List.sum_cons,
    List.sum_nil, chainObsNnz] at hnnz hnnzO
  rw [chainFaults_concat] at hfaults
  have hbands := (h.stepFits_iff hc hp).mp hbands
  apply exists_demStitch (h.stitchable hc hp (lt_two_pow_of_lt_uint32Max hfit.faults)) hne
  · refine ⟨?_, by rwa [h.stitchRows_eq hc hp], hbands.1, hbands.2⟩
    rwa [h.numFaults_eq (hc.init hp) hp]
  · have haccNnz := h.nnz
    omega
  · omega
  · rw [h.numNnz_O, chainObsNnz]
    omega

/-- The fold over a chain that fits, with rows only where there are faults, returns. -/
theorem exists_stitchFold (hne : f ≠ t) (hp : p ≠ []) (hc : ChainValid f t p)
    (hrows : chainRows f t p < 2 ^ 32) (hbands : BandsLeaveRoom f t p) (hfit : Fits p)
    (hrf : RowsHaveFaults f t p) (hO : ∀ c ∈ p, c.O.numCols = c.numFaults) :
    ∃ acc, stitchFold f t p = .ok acc ∧ Reads f t p acc := by
  induction p using List.reverseRecOn with
  | nil => exact absurd rfl hp
  | append_singleton p x ih =>
    by_cases hp' : p = []
    · subst hp'
      exact ⟨x, rfl, reads_single (hc.valid x (by simp)) (hc.only x (by simp))⟩
    · obtain ⟨acc, hacc, hreads⟩ := ih hp' (hc.init hp')
        (lt_of_le_of_lt (chainRows_concat_ge hc hp') hrows) hbands.init hfit.init hrf.init
        fun c hc' => hO c (by simp [hc'])
      have hstep := hbands p x hp' (List.prefix_refl _)
      obtain ⟨r, hr⟩ := hreads.exists_step hne hc hp' hrows hstep hfit hO
      have hs := demStitch_eq_ok hr
      have hz : acc.numFaults + x.numFaults = 0 → stitchRows acc x f t = 0 := by
        rw [hreads.numFaults_eq (hc.init hp') hp', ← chainFaults_concat,
          hreads.stitchRows_eq hc hp']
        have := List.length_pos_iff.mpr hp'
        exact hrf.whole (by simp; omega)
      have hv : r.Valid := by
        apply hs.valid hz _ (hO x (by simp))
        rw [hreads.numCols_O fun c hc' => hO c (by simp [hc']),
          hreads.numFaults_eq (hc.init hp') hp']
      refine ⟨r, ?_, hreads.step hp' hs hv⟩
      rw [stitchFold_concat hp', hacc, ok_bind, hr]

/-- An accumulator that the next step accepts reads as the chunks so far. -/
theorem reads_of_stitchFold (hp : p ≠ []) (hc : ChainValid f t p)
    (hacc : stitchFold f t p = .ok acc) (hv : acc.Valid) :
    Reads f t p acc ∧ RowsHaveFaults f t p ∧ BandsLeaveRoom f t p := by
  induction p using List.reverseRecOn generalizing acc with
  | nil => exact absurd rfl hp
  | append_singleton p x ih =>
    by_cases hp' : p = []
    · subst hp'
      cases hacc
      refine ⟨reads_single hv (hc.only x (by simp)), ?_, bandsLeaveRoom_single⟩
      intro k h2 hk
      simp at hk
      omega
    · rw [stitchFold_concat hp', bind_eq_ok] at hacc
      obtain ⟨acc', hacc', hr⟩ := hacc
      have hs := demStitch_eq_ok hr
      obtain ⟨hreads, hrf, hbands⟩ := ih hp' (hc.init hp') hacc' hs.stitchable.left
      have hfits := (hreads.stepFits_iff hc hp').mpr ⟨hs.H.fits.left, hs.H.fits.right⟩
      refine ⟨hreads.step hp' hs hv, ?_, hbands.concat hfits⟩
      intro k h2 hk hz
      rcases Nat.lt_or_ge p.length k with hlt | hle
      · have hkeq : k = (p ++ [x]).length := by
          simp at hk ⊢
          omega
        rw [hkeq, List.take_length] at hz ⊢
        rw [← hreads.stitchRows_eq hc hp']
        apply hs.rows_of_valid hv
        rw [hreads.numFaults_eq (hc.init hp') hp', ← chainFaults_concat, hz]
      · rw [List.take_append_of_le_length hle] at hz ⊢
        exact hrf k h2 hle hz

/-! ## Against the assembled chain -/

/-- The same chunk up to the order and multiplicity in which `H` lists its entries. -/
structure SameChunk (a b : ExtendedDem) : Prop where
  H : a.H.canonicalize = b.H.canonicalize
  O : a.O = b.O
  rates : a.errorRates = b.errorRates
  seams : a.seams = b.seams
  tags : a.tags = b.tags

theorem canonicalize_canonicalize (m : SparseBinaryMatrix) (h : m.layout = .csc) :
    m.canonicalize.canonicalize = m.canonicalize :=
  canonicalize_eq_of_entry h h rfl rfl fun r _ c _ => entry_canonicalize m r c

theorem chainOColumns_eq (hO : ∀ c ∈ cs, c.O.numCols = c.numFaults) :
    chainOColumns cs = cs.flatMap fun c => c.O.toNestedCsc := by
  unfold chainOColumns
  apply List.flatMap_congr
  intro c hc
  rw [toNestedCsc_toCsc]
  split
  · next h0 =>
    have hnil : c.O.toNestedCsc = [] := List.length_eq_zero_iff.mp (by rw [length_toNestedCsc, h0])
    rw [← hO c hc, h0, List.replicate_zero, hnil]
  · rfl

theorem IsAssembled.fits (h : IsAssembled f t cs r) (hlt : chainRows f t cs < 2 ^ 32)
    (hO : ∀ c ∈ cs, c.O.numCols = c.numFaults) : Fits cs := by
  refine ⟨h.faults, h.nnz hlt, ?_⟩
  have hnnz := r.O.nnz_lt
  rwa [h.groupsO, chainOColumns_eq hO, storedCount_flatMap_O] at hnnz

/-- The last step of the fold against the assembled chain: they agree, unless the fold lost its
rows. -/
theorem sameChunk_iff (hc : ChainValid f t (p ++ [x])) (hp : p ≠ []) (hreads : Reads f t p acc)
    (hs : IsStitch acc x f t d) (hr : IsAssembled f t (p ++ [x]) r)
    (hlt : chainRows f t (p ++ [x]) < 2 ^ 32) (hO : ∀ c ∈ p ++ [x], c.O.numCols = c.numFaults) :
    SameChunk d r ↔ (chainFaults (p ++ [x]) = 0 → chainRows f t (p ++ [x]) = 0) := by
  obtain ⟨m, hrH, hml, hmr, hmc, hmrows⟩ := hr.H
  have hmrows := hmrows hlt
  rw [u32_of_lt hlt] at hmr
  have hfaults : acc.numFaults + x.numFaults = chainFaults (p ++ [x]) := by
    rw [hreads.numFaults_eq (hc.init hp) hp, chainFaults_concat]
  have hbands : (acc.banded f t).stitch (x.banded f t) = bandedChain f t (p ++ [x]) := by
    rw [hreads.banded, bandedChain_concat hp]
  have hrowsH := hs.H.rows
  rw [hfaults, hbands] at hrowsH
  obtain ⟨hstart, hlastrows⟩ := hreads.rows_eq (hc.init hp) hp
  have hb := (hc.last_boundary hp).width
  -- only the rows of the matrix can differ: the fold drops them where it has no column
  constructor
  · intro hsame hz
    have hnum : d.H.numRows = r.H.numRows := by
      have := congrArg SparseBinaryMatrix.numRows hsame.H
      simpa using this
    rw [if_pos hz] at hrowsH
    rw [hrH, canonicalize_numRows, hmr, ← length_rowCounts, hrowsH] at hnum
    exact hnum.symm
  · intro hz
    have hrows : d.H.rowCounts = m.rowCounts := by
      rw [hrowsH, hmrows]
      split
      · next h0 =>
        rw [eq_comm, ← List.length_eq_zero_iff, ← hmrows, length_rowCounts, hmr, hz h0]
      · rfl
    have hcan : d.H.canonicalize = m.canonicalize :=
      canonicalize_eq_of_rowCounts hs.H.layout hml (by rw [hs.H.cols, hmc, hfaults]) hrows
    have hOd := hcat_groups hs.O
    refine ⟨?_, ?_, ?_, ?_, ?_⟩
    · rw [hcan, hrH, canonicalize_canonicalize m hml]
    · apply SparseBinaryMatrix.ext
      · rw [hOd.1, hr.layoutO]
      · rw [hOd.2.1, hr.rowsO, headD_append hp]
        exact hreads.obs
      · rw [hOd.2.2.1, hr.colsO, hreads.numCols_O fun c hc' => hO c (by simp [hc']),
          hO x (by simp), chainFaults_concat]
      · rw [hOd.2.2.2, hr.groupsO, chainOColumns_eq hO, hreads.nestedO]
        simp
    · rw [hs.rates, hr.rates, hreads.rates]
      simp
    · have hleadle : acc.seamRowsOrZero t ≤ chainRows f t (p ++ [x]) := by
        rw [chainRows, startRow_concat]
        omega
      have hlead : acc.seamRowsOrZero t = (p.headD .empty).seamRowsOrZero t := hreads.lead_eq hp
      have htrail : startRow t (p ++ [x]) ≤ chainRows f t (p ++ [x]) := Nat.le_add_right _ _
      rw [hs.seams, hr.seams, headD_append hp, ← hlead, u32_of_lt (by omega), u32_of_lt (by omega),
        u32_of_lt hlt, chainRows, startRow_concat, List.getLastD_concat, pairSeams]
      congr 3
      · omega
      · omega
    · rw [hs.tags, hr.tags, hreads.tagsTo, headD_append hp, List.getLastD_concat]

/-! ## Both ways of stitching -/

/-- A list of two or more chunks takes the assembling branch. -/
theorem demStitchAll_eq_ok (h2 : 2 ≤ cs.length) (hd : ∀ c ∈ cs, c.DistinctSeams)
    (h : demStitchAll cs f t = .ok r) :
    ChainValid f t cs ∧ IsAssembled f t cs r := by
  match cs, h2, hd, h with
  | c :: c' :: cs, _, hd, h =>
    obtain ⟨_, hv, ha⟩ := bind_eq_ok.mp h
    have hc := validateChain_eq_ok.mp hv
    exact ⟨hc, assembleChain_eq_ok hc hd ha⟩

/-- `dem_stitch` is associative wherever both ways of bracketing return. -/
theorem sameChunk_assoc {ab bc left right : ExtendedDem} (hab : IsStitch a b f t ab)
    (hleft : IsStitch ab c f t left) (hbc : IsStitch b c f t bc)
    (hright : IsStitch a bc f t right) : SameChunk left right := by
  have habv := hleft.stitchable.left
  have hbcv := hright.stitchable.right
  have eab := hab.banded_eq (hab.rows_of_valid habv)
  have ebc := hbc.banded_eq (hbc.rows_of_valid hbcv)
  have hbands : (ab.banded f t).stitch (c.banded f t) =
      (a.banded f t).stitch (bc.banded f t) := by
    rw [eab, ebc, Banded.stitch_assoc]
  have hfaults : ab.numFaults + c.numFaults = a.numFaults + bc.numFaults := by
    rw [hab.numFaults, hbc.numFaults, Nat.add_assoc]
  obtain ⟨l1, l2, l3, l4⟩ := hcat_groups hleft.O
  obtain ⟨r1, r2, r3, r4⟩ := hcat_groups hright.O
  obtain ⟨ab1, ab2, ab3, ab4⟩ := hcat_groups hab.O
  obtain ⟨bc1, bc2, bc3, bc4⟩ := hcat_groups hbc.O
  refine ⟨?_, ?_, ?_, ?_, ?_⟩
  · apply canonicalize_eq_of_rowCounts hleft.H.layout hright.H.layout
    · rw [hleft.H.cols, hright.H.cols, hfaults]
    · rw [hleft.H.rows, hright.H.rows, hfaults, hbands]
  · apply SparseBinaryMatrix.ext
    · rw [l1, r1]
    · rw [l2, r2, ab2]
    · rw [l3, r3, ab3, bc3, Nat.add_assoc]
    · rw [l4, r4, nestedO_of_csc ab1, nestedO_of_csc bc1, ab4, bc4, List.append_assoc]
  · rw [hleft.rates, hright.rates, hab.rates, hbc.rates, List.append_assoc]
  · rw [hleft.seams_eq, hright.seams_eq, hbands]
  · rw [hleft.tags, hright.tags, hab.seamTags_to, hbc.seamTags_from]

/-- `dem_stitch_all` against the left fold of `dem_stitch`. Whenever it succeeds on two or more
chunks of distinct seams, the fold succeeds with the same chunk exactly when the rows of the chain fit
in `uint32_t`, no two or more leading chunks have rows without having a fault, and no step cuts out a
band of `2 ^ 32 - 1` rows; and `dem_stitch` is associative wherever both ways of bracketing return. -/
theorem demStitchAll_eq_fold_iff (f t : SeamId) :
    (∀ (cs : List ExtendedDem) (r : ExtendedDem), 2 ≤ cs.length → (∀ c ∈ cs, c.DistinctSeams) →
      (∀ c ∈ cs, c.O.numCols = c.numFaults) → demStitchAll cs f t = .ok r →
        ((∃ r', stitchFold f t cs = .ok r' ∧ SameChunk r' r) ↔
          chainRows f t cs < 2 ^ 32 ∧ RowsHaveFaults f t cs ∧ BandsLeaveRoom f t cs)) ∧
    (∀ a b c ab bc left right : ExtendedDem,
      demStitch a b f t = .ok ab → demStitch ab c f t = .ok left →
        demStitch b c f t = .ok bc → demStitch a bc f t = .ok right → SameChunk left right) := by
  constructor
  · intro cs r h2 hd hO hr
    obtain ⟨hc, ha⟩ := demStitchAll_eq_ok h2 hd hr
    obtain ⟨p, x, rfl⟩ : ∃ p x, cs = p ++ [x] :=
      ⟨cs.dropLast, cs.getLast (by rintro rfl; simp at h2), (List.dropLast_append_getLast _).symm⟩
    have hp : p ≠ [] := by
      rintro rfl
      simp at h2
    constructor
    · rintro ⟨r', hfold, hsame⟩
      rw [stitchFold_concat hp, bind_eq_ok] at hfold
      obtain ⟨acc, hacc, hstep⟩ := hfold
      have hs := demStitch_eq_ok hstep
      obtain ⟨hreads, hrf, hbands⟩ := reads_of_stitchFold hp (hc.init hp) hacc hs.stitchable.left
      have hfits := (hreads.stepFits_iff hc hp).mpr ⟨hs.H.fits.left, hs.H.fits.right⟩
      have hlt : chainRows f t (p ++ [x]) < 2 ^ 32 := by
        rw [← hreads.stitchRows_eq hc hp]
        exact hs.H.fits.rows
      have hlast := (sameChunk_iff hc hp hreads hs ha hlt hO).mp hsame
      refine ⟨hlt, ?_, hbands.concat hfits⟩
      -- a prefix is the whole chain, which the last step has, or part of what was folded before
      intro k hk2 hk hz
      rcases Nat.lt_or_ge p.length k with hgt | hle
      · have hkeq : k = (p ++ [x]).length := by
          simp at hk ⊢
          omega
        rw [hkeq, List.take_length] at hz ⊢
        exact hlast hz
      · rw [List.take_append_of_le_length hle] at hz ⊢
        exact hrf k hk2 hle hz
    · rintro ⟨hlt, hrf, hbands⟩
      obtain ⟨r', hfold, hreads'⟩ :=
        exists_stitchFold ha.ne (by simp) hc hlt hbands (ha.fits hlt hO) hrf hO
      refine ⟨r', hfold, ?_⟩
      rw [stitchFold_concat hp, bind_eq_ok] at hfold
      obtain ⟨acc, hacc, hstep⟩ := hfold
      have hs := demStitch_eq_ok hstep
      obtain ⟨hreads, -⟩ := reads_of_stitchFold hp (hc.init hp) hacc hs.stitchable.left
      exact (sameChunk_iff hc hp hreads hs ha hlt hO).mpr (hrf.whole h2)
  · intro a b c ab bc left right h1 h2 h3 h4
    exact sameChunk_assoc (demStitch_eq_ok h1) (demStitch_eq_ok h2) (demStitch_eq_ok h3)
      (demStitch_eq_ok h4)

/-! ## Two chunks -/

/-- A one-fault chunk with one row in each band, the fault flipping all three and the observable. -/
def oneFaultChunk : ExtendedDem where
  H := .ofGroups .csc 3 1 [[0, 1, 2]]
  O := .ofGroups .csc 1 1 [[0]]
  errorRates := [1 / 10]
  seams := [⟨⟨0⟩, 0, 1⟩, ⟨⟨1⟩, 1, 2⟩]
  tags := [0, 0]

example : chainRows ⟨1⟩ ⟨0⟩ [oneFaultChunk, oneFaultChunk] = 5 := by decide +kernel

theorem demStitchAll_eq_fold_iff_oneFault :
    (∃ r, demStitchAll [oneFaultChunk, oneFaultChunk] ⟨1⟩ ⟨0⟩ = .ok r ∧
      ((∃ r', stitchFold ⟨1⟩ ⟨0⟩ [oneFaultChunk, oneFaultChunk] = .ok r' ∧ SameChunk r' r) ↔
        chainRows ⟨1⟩ ⟨0⟩ [oneFaultChunk, oneFaultChunk] < 2 ^ 32 ∧
          RowsHaveFaults ⟨1⟩ ⟨0⟩ [oneFaultChunk, oneFaultChunk] ∧
            BandsLeaveRoom ⟨1⟩ ⟨0⟩ [oneFaultChunk, oneFaultChunk])) ∧
    ∃ left right ab bc, demStitch oneFaultChunk oneFaultChunk ⟨1⟩ ⟨0⟩ = .ok ab ∧
      demStitch ab oneFaultChunk ⟨1⟩ ⟨0⟩ = .ok left ∧
        demStitch oneFaultChunk oneFaultChunk ⟨1⟩ ⟨0⟩ = .ok bc ∧
          demStitch oneFaultChunk bc ⟨1⟩ ⟨0⟩ = .ok right ∧ SameChunk left right := by
  constructor
  · obtain ⟨r, hr⟩ : ∃ r, demStitchAll [oneFaultChunk, oneFaultChunk] ⟨1⟩ ⟨0⟩ = .ok r :=
      exists_eq_ok (by decide +kernel)
    exact ⟨r, hr, (demStitchAll_eq_fold_iff _ _).1 _ r (by decide) (by decide) (by decide +kernel) hr⟩
  · obtain ⟨left, hl⟩ : ∃ left, (demStitch oneFaultChunk oneFaultChunk ⟨1⟩ ⟨0⟩ >>= fun ab =>
        demStitch ab oneFaultChunk ⟨1⟩ ⟨0⟩) = .ok left := exists_eq_ok (by decide +kernel)
    obtain ⟨right, hr⟩ : ∃ right, (demStitch oneFaultChunk oneFaultChunk ⟨1⟩ ⟨0⟩ >>= fun bc =>
        demStitch oneFaultChunk bc ⟨1⟩ ⟨0⟩) = .ok right := exists_eq_ok (by decide +kernel)
    obtain ⟨ab, hab, hl⟩ := bind_eq_ok.mp hl
    obtain ⟨bc, hbc, hr⟩ := bind_eq_ok.mp hr
    exact ⟨left, right, ab, bc, hab, hl, hbc, hr,
      (demStitchAll_eq_fold_iff _ _).2 _ _ _ ab bc left right hab hl hbc hr⟩

def faultlessChunk : ExtendedDem where
  H := .ofGroups .csc 1 0 []
  O := .empty
  errorRates := []
  seams := [⟨⟨0⟩, 0, 0⟩, ⟨⟨1⟩, 0, 0⟩]
  tags := []

/-- Two chunks without faults: assembled, the chain keeps its two rows; folded, it has none. -/
theorem demStitchAll_ne_fold_faultless :
    (∀ c ∈ [faultlessChunk, faultlessChunk], c.O.numCols = c.numFaults) ∧
      (∃ r, demStitchAll [faultlessChunk, faultlessChunk] ⟨1⟩ ⟨0⟩ = .ok r) ∧
      ¬ ∃ r r', demStitchAll [faultlessChunk, faultlessChunk] ⟨1⟩ ⟨0⟩ = .ok r ∧
        stitchFold ⟨1⟩ ⟨0⟩ [faultlessChunk, faultlessChunk] = .ok r' ∧ SameChunk r' r := by
  have hall : (demStitchAll [faultlessChunk, faultlessChunk] ⟨1⟩ ⟨0⟩).toOption.map
      (fun r => r.H.numRows) = some 2 := by decide +kernel
  have hfold : (stitchFold ⟨1⟩ ⟨0⟩ [faultlessChunk, faultlessChunk]).toOption.map
      (fun r => r.H.numRows) = some 0 := by decide +kernel
  refine ⟨by decide +kernel, ?_, ?_⟩
  · cases h : demStitchAll [faultlessChunk, faultlessChunk] ⟨1⟩ ⟨0⟩ with
    | error e => simp [h, Except.toOption] at hall
    | ok r => exact ⟨r, rfl⟩
  · rintro ⟨r, r', hr, hr', hsame⟩
    rw [hr] at hall
    rw [hr'] at hfold
    have hrows := congrArg SparseBinaryMatrix.numRows hsame.H
    simp only [Except.toOption, Option.map_some, Option.some.injEq, canonicalize_numRows] at *
    omega

end CudaqQec
