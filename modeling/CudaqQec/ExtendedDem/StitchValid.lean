import CudaqQec.ExtendedDem.StitchSpec

/-!
# Validity of a stitched chunk

`dem_stitch` pads and concatenates the five bands of its result and computes the seam descriptors
next to them. The result passes `validate` again with two exceptions: `hcat` joins the observable
matrices as they are, so an empty one beside one without rows leaves faults without a column, and a
result without faults loses its rows.

* `demStitch_valid_iff`: when a stitched chunk is one that can be stitched again.
-/

namespace CudaqQec

open Checked SparseBinaryMatrix ExtendedDem

variable {a b r : ExtendedDem} {f t : SeamId}

/-! ## What is asked of the two chunks -/

def NoObservables (d : ExtendedDem) : Prop := d.O.numRows = 0 ∧ d.O.numCols = 0

/-- Two observable matrices that `hcat` lines up with the faults of both chunks. -/
def ObservablesAlign (a b : ExtendedDem) : Prop :=
  NoObservables a ∧ NoObservables b ∨ a.O.numCols = a.numFaults ∧ b.O.numCols = b.numFaults

instance (a b : ExtendedDem) : Decidable (ObservablesAlign a b) :=
  inferInstanceAs (Decidable ((_ ∧ _) ∧ (_ ∧ _) ∨ (_ ∧ _)))

/-- No row of the result is lost with its columns. -/
def RowsKept (a b : ExtendedDem) (f t : SeamId) : Prop :=
  0 < a.numFaults + b.numFaults ∨ stitchRows a b f t = 0

instance (a b : ExtendedDem) (f t : SeamId) : Decidable (RowsKept a b f t) :=
  inferInstanceAs (Decidable (_ ∨ _))

namespace IsStitch

/-! ## The stitched chunk -/

theorem numRows (h : IsStitch a b f t r) :
    r.H.numRows = if a.numFaults + b.numFaults = 0 then 0 else stitchRows a b f t := by
  rw [← length_rowCounts, h.H.rows]
  split
  · rfl
  · exact h.stitchable.length_rows

/-- The columns of the two observable matrices are all the columns there are. -/
theorem obs_iff (h : IsStitch a b f t r) :
    (r.O.numRows = 0 ∧ r.O.numCols = 0 ∨ r.O.numCols = r.numFaults) ↔ ObservablesAlign a b := by
  obtain ⟨-, hrows, hcols, -⟩ := hcat_groups h.O
  have hobs : a.O.numRows = b.O.numRows := h.stitchable.obs
  have ha := h.stitchable.left.obs
  have hb := h.stitchable.right.obs
  rw [hrows, hcols, h.numFaults, ObservablesAlign, NoObservables, NoObservables]
  omega

theorem seamTotal (h : IsStitch a b f t r) :
    r.seamTotal = a.seamRowsOrZero t + b.seamRowsOrZero f := by
  simp only [ExtendedDem.seamTotal, h.seams, pairSeams, List.map_cons, List.map_nil, List.sum_cons,
    List.sum_nil, Seam.numRows]
  omega

/-- With its rows kept, only the observables can make a stitched chunk invalid. -/
theorem valid_iff (h : IsStitch a b f t r) (hrows : r.H.numRows = stitchRows a b f t) :
    r.Valid ↔ ObservablesAlign a b := by
  refine ⟨fun hv => h.obs_iff.mp hv.obs, fun halign => ?_⟩
  have hlen : stitchRows a b f t = a.seamRowsOrZero t + a.numInteriorRows + a.seamRowsOrZero f +
      b.numInteriorRows + b.seamRowsOrZero f := rfl
  constructor
  case cols => rw [h.H.cols, h.numFaults]
  case obs => exact h.obs_iff.mpr halign
  case bands =>
    intro s hs
    rw [h.seams, pairSeams] at hs
    rcases List.mem_pair.mp hs with rfl | rfl
    · refine ⟨Nat.zero_le _, ?_⟩
      simp only [hrows, hlen]
      omega
    · exact ⟨Nat.le_add_right _ _, by rw [hrows, hlen]⟩
  case disjoint =>
    rw [h.seams, pairSeams, List.pairwise_pair]
    simp only [Seam.Disjoint]
    omega
  case tags =>
    rw [h.tags, List.length_append, h.stitchable.left.length_seamTags,
      h.stitchable.right.length_seamTags, h.seamTotal]

end IsStitch

/-! ## Chunks with two seams -/

def twoSeamChunk : ExtendedDem where
  H := .ofGroups .csc 3 1 [[0, 1, 2]]
  O := .empty
  errorRates := [1 / 10]
  seams := [⟨⟨0⟩, 0, 1⟩, ⟨⟨1⟩, 1, 2⟩]
  tags := [0, 0]

def alignedChunk : ExtendedDem := { twoSeamChunk with O := .ofGroups .csc 0 1 [[]] }

/-- A stitched chunk has every row and passes `validate` exactly when the observable matrices line
up with the faults and no row is lost; its tags are those of the two outer seams in any case. -/
theorem demStitch_valid_iff (a b r : ExtendedDem) (f t : SeamId) (h : demStitch a b f t = .ok r) :
    ((∀ context, r.validate context = .ok ()) ∧ r.H.numRows = stitchRows a b f t ∧
      r.tags = a.seamTags t ++ b.seamTags f) ↔ ObservablesAlign a b ∧ RowsKept a b f t := by
  have hst := demStitch_eq_ok h
  have hkept : r.H.numRows = stitchRows a b f t ↔ RowsKept a b f t := by
    rw [hst.numRows, RowsKept]
    split <;> omega
  simp only [validate_eq_ok, forall_const]
  constructor
  · rintro ⟨hv, hrows, -⟩
    exact ⟨(hst.valid_iff hrows).mp hv, hkept.mp hrows⟩
  · rintro ⟨halign, hk⟩
    exact ⟨(hst.valid_iff (hkept.mpr hk)).mpr halign, hkept.mpr hk, hst.tags⟩

theorem demStitch_valid_iff_oneFault :
    ∃ r, demStitch twoSeamChunk twoSeamChunk ⟨1⟩ ⟨0⟩ = .ok r ∧
      (∀ context, r.validate context = .ok ()) ∧ r.H.numRows = 5 := by
  obtain ⟨r, hr⟩ : ∃ r, demStitch twoSeamChunk twoSeamChunk ⟨1⟩ ⟨0⟩ = .ok r :=
    exists_eq_ok (by decide +kernel)
  obtain ⟨hv, hrows, -⟩ := (demStitch_valid_iff twoSeamChunk twoSeamChunk r ⟨1⟩ ⟨0⟩ hr).mpr
    (by decide +kernel)
  exact ⟨r, hr, hv, hrows⟩

/-- Two valid chunks without observables, one written `0 × 0` and the other `0 × 1`. Their stitched
chunk names observables for one of its two faults. -/
theorem demStitch_not_valid :
    (twoSeamChunk.validate "left" = .ok () ∧ alignedChunk.validate "right" = .ok ()) ∧
      ∃ r, demStitch twoSeamChunk alignedChunk ⟨1⟩ ⟨0⟩ = .ok r ∧
        r.validate "dem_stitch: left" = .error (.invalidArgument
          "dem_stitch: left: O has 1 cols but chunk has 2 faults") := by
  refine ⟨by decide +kernel, ?_⟩
  obtain ⟨r, hr⟩ : ∃ r, demStitch twoSeamChunk alignedChunk ⟨1⟩ ⟨0⟩ = .ok r :=
    exists_eq_ok (by decide +kernel)
  have hval : (demStitch twoSeamChunk alignedChunk ⟨1⟩ ⟨0⟩ >>= fun r =>
      r.validate "dem_stitch: left") = .error (.invalidArgument
        "dem_stitch: left: O has 1 cols but chunk has 2 faults") := by decide +kernel
  rw [hr, ok_bind] at hval
  exact ⟨r, hr, hval⟩

end CudaqQec
