import CudaqQec.Ingest.Core

/-!
# The rounds of a shot, as ingest measures them

The constructor measures rounds on one probe shot and checks them on the shortest ones. That is enough
for every shot the template admits: a template whose repeating phase lies off the chain is rejected,
and in every other one a round's width, detectors and `D_sparse` are those of its kind.

* `onChain`: a setup that is accepted has room for prefix and suffix in every shot.
* `width_eq`: a round is as wide as it is cut, the readout round as the last one of the probe.
* `kindOf_eq`: what `form_detectors` looks up for a round is the round's own.
* `dSparse_lt`: a round's `D_sparse` reads its round and the one before.
-/

namespace CudaqQec

open Checked WindowRequest Slots TemplateData

namespace IngestCore

variable (c : IngestCore)

/-! ## What the constructor checked -/

theorem checked_steps : c.layers ≠ [] ∧ (∀ l ∈ c.layers, c.checkLayer l = .ok ()) ∧
    c.minWidth ≠ 0 ∧ ∀ R, c.t.minRounds ≤ R → R ≤ c.probe → ∀ r < R, c.checkRoundOf r R = .ok () := by
  have h := c.checked
  simp only [IngestSetup.check, bind_eq_ok, throwIf_eq_ok, forM_eq_ok, List.mem_range',
    List.mem_range] at h
  obtain ⟨_, h1, _, h2, _, h3, h4⟩ := h
  refine ⟨h1, h2, h3, fun R hmin hR r hr => h4 R ⟨R - c.t.minRounds, by omega, by omega⟩ r hr⟩

/-- What the constructor found of a round of a probe. -/
structure RoundChecked (r R : Nat) : Prop where
  width : widthOf c.t r R = if r + 1 = R then c.lastWidth else c.forwardWidth r
  rows : c.hasD = false → rowsOfRound c.t r R = widthOf c.t r R ∧
    (0 < r → widthOf c.t (r - 1) R = widthOf c.t r R)
  index : c.hasD = true → ∀ index ∈ dOf c.t r R, index ≠ -1 →
    sizeT index < (if r = 0 then 0 else widthOf c.t (r - 1) R) + widthOf c.t r R
  count : c.hasD = true → (dOf c.t r R).count (-1) = rowsOfRound c.t r R

theorem round_checked {r R : Nat} (hmin : c.t.minRounds ≤ R) (hR : R ≤ c.probe) (hr : r < R) :
    c.RoundChecked r R := by
  have h := c.checked_steps.2.2.2 R hmin hR r hr
  simp only [IngestSetup.checkRoundOf, bind_eq_ok, throwIf_eq_ok, ne_eq, not_not] at h
  obtain ⟨_, hw, _, hrows, hd⟩ := h
  refine ⟨hw, fun hD => ?_, fun hD => ?_, fun hD => ?_⟩
  · constructor
    · by_contra hn
      exact hrows ⟨hD, .inl hn⟩
    · intro h0
      by_contra hn
      refine hrows ⟨hD, .inr ⟨h0, ?_⟩⟩
      rwa [if_neg (by omega)]
  · simp only [hD, if_true, IngestSetup.checkDSparse, bind_eq_ok, forM_eq_ok, throwIf_eq_ok] at hd
    obtain ⟨_, hidx, -⟩ := hd
    intro index hi hne
    have := hidx index hi
    by_contra hn
    exact this ⟨hne, not_lt.mp hn⟩
  · simp only [hD, if_true, IngestSetup.checkDSparse, bind_eq_ok, forM_eq_ok, throwIf_eq_ok, ne_eq,
      not_not] at hd
    obtain ⟨_, -, hcount⟩ := hd
    exact hcount

/-! ## Room for prefix and suffix -/

theorem one_le_prefixWidth {r : Nat} (hr : r < c.prefixRounds) : 1 ≤ c.prefixWidth r := by
  have h := (foldl_min_le (l := (List.range c.prefixRounds).map c.prefixWidth)
    (x := min c.lastWidth (if c.repeats then c.bulkWidth else c.lastWidth))).2 (c.prefixWidth r)
    (List.mem_map.mpr ⟨r, List.mem_range.mpr hr, rfl⟩)
  have h0 := c.checked_steps.2.2.1
  unfold IngestSetup.minWidth at h0
  omega

theorem one_le_lastWidth : 1 ≤ c.lastWidth := by
  have h := (foldl_min_le (l := (List.range c.prefixRounds).map c.prefixWidth)
    (x := min c.lastWidth (if c.repeats then c.bulkWidth else c.lastWidth))).1
  have h0 := c.checked_steps.2.2.1
  unfold IngestSetup.minWidth at h0
  omega

theorem one_le_bulkWidth (hrep : c.repeats = true) : 1 ≤ c.bulkWidth := by
  have h := (foldl_min_le (l := (List.range c.prefixRounds).map c.prefixWidth)
    (x := min c.lastWidth (if c.repeats then c.bulkWidth else c.lastWidth))).1
  have h0 := c.checked_steps.2.2.1
  unfold IngestSetup.minWidth at h0
  rw [if_pos hrep] at h h0
  omega

theorem one_le_forwardWidth {r : Nat} (h : c.repeats = false → r < c.prefixRounds) :
    1 ≤ c.forwardWidth r := by
  unfold IngestSetup.forwardWidth
  split
  · next hr => exact c.one_le_prefixWidth hr
  · next hr => exact c.one_le_bulkWidth (by by_contra hn; exact hr (h (by simpa using hn)))

/-- Where the chain lies whole on both sides of the repeating phase, the first round of the shortest
shot is measured twice over. -/
theorem onChain (hrep : c.repeats = true) :
    c.t.prefixRounds + 1 + c.t.suffixRounds ≤ c.t.minRounds := by
  have hs := c.context.shape
  rcases hs.split hrep with h | ⟨h1, h2⟩
  · exact h
  · exfalso
    have htwo := hs.two_le
    have hsfx : c.t.suffixRounds = c.t.minRounds := by
      rw [TemplateData.suffixRounds, IngestSetup.t, h2]
      exact h1
    have hprobe : c.probe = c.t.minRounds + 2 := if_pos hrep
    have hpos : 0 < c.prefixRounds := by
      show 0 < c.t.prefixRounds
      rw [IngestSetup.t, h1]
      omega
    -- if prefix and suffix overlapped, the first round would end in either of them
    have hsum : ∀ R, c.t.minRounds ≤ R → c.t.sumBefore PhaseChunks.width 1 R =
        c.t.sumOf PhaseChunks.width (c.t.prefixPhases.take 1) +
          c.t.sumOf PhaseChunks.width (c.t.suffixPhases.take (1 - (R - c.t.minRounds))) := by
      intro R _
      unfold TemplateData.sumBefore
      have hp : ¬ (c.t.repeats = true ∧ c.t.prefixRounds < 1) := by
        have : 0 < c.t.prefixRounds := hpos
        omega
      rw [if_neg hp, hsfx]
      ring
    have hchunk := (c.round_checked (le_refl c.t.minRounds) (by omega) (r := 0) (by
      show 0 < c.context.minRounds
      omega)).width
    rw [if_neg (by
      have : 2 ≤ c.t.minRounds := htwo
      omega)] at hchunk
    have hw : ∀ R, c.t.minRounds ≤ R → (widthOf c.t 0 R : Int) =
        c.t.sumOf PhaseChunks.width (c.t.prefixPhases.take 1) +
          c.t.sumOf PhaseChunks.width (c.t.suffixPhases.take (1 - (R - c.t.minRounds))) := by
      intro R hR
      unfold widthOf TemplateData.measurementOffset
      have hnn : (0 : Int) ≤ c.t.sumOf PhaseChunks.width (c.t.prefixPhases.take 1) +
          c.t.sumOf PhaseChunks.width (c.t.suffixPhases.take (1 - (R - c.t.minRounds))) := by
        omega
      rw [sumBefore_zero, hsum R hR, sub_zero, sizeT_of_nonneg hnn]
    -- it is twice as wide in the shortest shot as in the probe, which the check of its width
    -- refuses
    have h0 := hw c.t.minRounds (le_refl _)
    have h2' := hw c.probe (by omega)
    have hprobe0 : 1 - (c.probe - c.t.minRounds) = 0 := by omega
    have hmin0 : 1 - (c.t.minRounds - c.t.minRounds) = 1 := by omega
    rw [hprobe0, List.take_zero] at h2'
    have hpre : c.t.suffixPhases.take 1 = c.t.prefixPhases.take 1 := congrArg (List.take 1) h2
    rw [hmin0, hpre] at h0
    have hone := c.one_le_prefixWidth hpos
    rw [IngestSetup.forwardWidth, if_pos hpos] at hchunk
    unfold IngestSetup.prefixWidth at hchunk hone
    have hz : (c.t.sumOf PhaseChunks.width [] : Int) = 0 := by simp [TemplateData.sumOf]
    rw [hz] at h2'
    omega

theorem rounds_fit {R : Nat} (hR : c.t.Admits R) : c.t.prefixRounds + c.t.suffixRounds ≤ R := by
  have hs := c.context.shape
  cases hrep : c.repeats with
  | true =>
    have := c.onChain hrep
    have := hR.1
    omega
  | false =>
    obtain ⟨h1, h2⟩ := hs.fixed hrep
    have hsfx : c.t.suffixRounds = 0 := by
      rw [TemplateData.suffixRounds, IngestSetup.t, h1]
      rfl
    have hpre : c.t.prefixRounds = c.t.minRounds := h2
    have := hR.1
    omega

theorem suffixRounds_eq : c.suffixRounds = c.t.suffixRounds := by
  unfold IngestSetup.suffixRounds
  split
  · rfl
  · next hrep =>
    obtain ⟨h1, -⟩ := c.context.shape.fixed (by simpa [IngestSetup.repeats, IngestSetup.t] using hrep)
    rw [TemplateData.suffixRounds, IngestSetup.t, h1]
    rfl

/-- In every shot, prefix and suffix leave room, and for a bulk round if there are any. -/
theorem prefix_add_suffix_lt {R : Nat} (hR : c.t.Admits R) (hrep : c.repeats = true) :
    c.prefixRounds + c.suffixRounds < R := by
  have h := c.onChain hrep
  have := hR.1
  rw [suffixRounds_eq]
  show c.t.prefixRounds + c.t.suffixRounds < R
  omega

theorem fixed_eq {R : Nat} (hR : c.t.Admits R) (hrep : c.repeats = false) :
    c.prefixRounds = R ∧ c.suffixRounds = 0 := by
  obtain ⟨h1, h2⟩ := c.context.shape.fixed hrep
  refine ⟨?_, ?_⟩
  · rw [hR.2 hrep]
    exact h2
  · rw [suffixRounds_eq, TemplateData.suffixRounds, IngestSetup.t, h1]
    rfl

theorem admits_probe : c.t.Admits c.probe := by
  unfold IngestSetup.probe
  split
  · next hrep =>
    refine ⟨by omega, fun hn => ?_⟩
    have : c.t.repeats = true := hrep
    simp [this] at hn
  · exact ⟨le_refl _, fun _ => rfl⟩

theorem two_le {R : Nat} (hR : c.t.Admits R) : 2 ≤ R := c.context.shape.two_le.trans hR.1

/-! ## Widths and detectors of a shot -/

theorem widthOf_eq {r R : Nat} (hR : c.t.Admits R) (hr : r < R) :
    widthOf c.t r R = (c.t.phaseChunks (c.t.phase r R)).width := by
  have h := sumBefore_succ PhaseChunks.width (c.rounds_fit hR) (c.context.eq_prefixRounds hR) hr
  unfold widthOf TemplateData.measurementOffset
  rw [h, add_sub_cancel_left, sizeT_natCast]
  rfl

theorem rowsOfRound_eq {r R : Nat} (hR : c.t.Admits R) (hr : r < R) :
    rowsOfRound c.t r R = (c.t.phaseChunks (c.t.phase r R)).rows := by
  have h := sumBefore_succ PhaseChunks.rows (c.rounds_fit hR) (c.context.eq_prefixRounds hR) hr
  unfold rowsOfRound TemplateData.rowOffset
  rw [h, add_sub_cancel_left, sizeT_natCast]
  rfl

def probeRound (r R : Nat) : Nat :=
  if r < c.prefixRounds then r
  else if r + c.suffixRounds < R then c.prefixRounds
  else c.probe - c.suffixRounds + (r + c.suffixRounds - R)

theorem probeRound_lt {r R : Nat} (hR : c.t.Admits R) (hr : r < R) :
    c.probeRound r R < c.probe := by
  unfold probeRound
  cases hrep : c.repeats with
  | true =>
    have h1 := c.prefix_add_suffix_lt c.admits_probe hrep
    split
    · omega
    · split <;> omega
  | false =>
    have h1 := c.fixed_eq c.admits_probe hrep
    have h2 := c.fixed_eq hR hrep
    rw [if_pos (by omega)]
    omega

theorem phase_probeRound {r R : Nat} (hR : c.t.Admits R) (hr : r < R) :
    c.t.phase (c.probeRound r R) c.probe = c.t.phase r R := by
  have hp : c.prefixRounds = c.t.prefixRounds := rfl
  unfold probeRound TemplateData.phase
  by_cases h1 : r < c.prefixRounds
  · rw [if_pos h1, if_pos (show r < c.t.prefixRounds from h1),
      if_pos (show r < c.t.prefixRounds from h1)]
  rw [if_neg h1, if_neg (show ¬ r < c.t.prefixRounds from h1)]
  have hrep : c.repeats = true := by
    by_contra hn
    have := c.fixed_eq hR (by simpa using hn)
    omega
  have hfit := c.prefix_add_suffix_lt c.admits_probe hrep
  have hfitR := c.prefix_add_suffix_lt hR hrep
  have hs := c.suffixRounds_eq
  by_cases h2 : r + c.suffixRounds < R
  · have h3 : ¬ c.prefixRounds < c.t.prefixRounds := by omega
    have h4 : c.prefixRounds < c.probe - c.t.suffixRounds := by omega
    have h5 : r < R - c.t.suffixRounds := by omega
    rw [if_pos h2, if_neg h3, if_pos h4, if_pos h5]
  · have h3 : ¬ c.probe - c.suffixRounds + (r + c.suffixRounds - R) < c.t.prefixRounds := by omega
    have h4 : ¬ c.probe - c.suffixRounds + (r + c.suffixRounds - R) < c.probe - c.t.suffixRounds := by
      omega
    have h5 : ¬ r < R - c.t.suffixRounds := by omega
    rw [if_neg h2, if_neg h3, if_neg h4, if_neg h5]
    congr 1
    omega

/-- What `form_detectors` looks up for a round is the round's own. -/
theorem kindOf_eq {r R : Nat} (hR : c.t.Admits R) (hr : r < R) :
    c.kindOf (some R) r = (rowsOfRound c.t r R, dOf c.t r R) := by
  have hkind : c.kindOf (some R) r =
      (rowsOfRound c.t (c.probeRound r R) c.probe, dOf c.t (c.probeRound r R) c.probe) := by
    unfold kindOf probeRound
    by_cases h1 : r < c.prefixRounds
    · simp only [if_pos h1]
    · have hrep : c.repeats = true := by
        by_contra hn
        have := c.fixed_eq hR (by simpa using hn)
        omega
      simp only [if_neg h1, Option.any_some, Option.getD_some, decide_eq_true_eq]
      by_cases h2 : r + c.suffixRounds < R
      · rw [if_pos h2, if_neg (by omega)]
        simp [IngestSetup.bulkRows, hrep]
      · rw [if_neg h2, if_pos (by omega)]
  rw [hkind, c.rowsOfRound_eq c.admits_probe (c.probeRound_lt hR hr), c.rowsOfRound_eq hR hr, dOf,
    dOf, c.phase_probeRound hR hr]

/-- Before FINAL a round is taken for bulk, which a round before the suffix is. -/
theorem kindOf_none {r R : Nat} (h : r < c.prefixRounds ∨ r + c.suffixRounds < R) :
    c.kindOf none r = c.kindOf (some R) r := by
  unfold kindOf
  by_cases h1 : r < c.prefixRounds
  · simp only [if_pos h1]
  · have h2 : ¬ R ≤ r + c.suffixRounds := by
      have := h.resolve_left h1
      omega
    simp only [if_neg h1, Option.any_none, Option.any_some, decide_eq_true_eq, if_neg h2,
      Bool.false_eq_true, if_false]

/-- A round is as wide as it is cut, and the readout round as the last one of the probe. -/
theorem width_eq {r R : Nat} (hR : c.t.Admits R) (hr : r < R) :
    widthOf c.t r R = if r + 1 = R then c.lastWidth else c.forwardWidth r := by
  have hw : ∀ r' < c.probe, c.t.phase r' c.probe = c.t.phase r R →
      widthOf c.t r R = widthOf c.t r' c.probe := by
    intro r' hr' hphase
    rw [c.widthOf_eq hR hr, c.widthOf_eq c.admits_probe hr', hphase]
  cases hrep : c.repeats with
  | false =>
    -- There is one shot, the probe.
    have h1 := c.fixed_eq c.admits_probe hrep
    have h2 := c.fixed_eq hR hrep
    have hRp : R = c.probe := by omega
    subst hRp
    exact (c.round_checked c.admits_probe.1 (le_refl _) hr).width
  | true =>
    have h1 := c.prefix_add_suffix_lt hR hrep
    have h2 := c.prefix_add_suffix_lt c.admits_probe hrep
    have hs := c.suffixRounds_eq
    have hp : c.prefixRounds = c.t.prefixRounds := rfl
    by_cases hlast : r + 1 = R
    · rw [if_pos hlast, IngestSetup.lastWidth]
      refine hw (c.probe - 1) (by omega) ?_
      unfold TemplateData.phase
      have h3 : ¬ c.probe - 1 < c.t.prefixRounds := by omega
      have h4 : ¬ r < c.t.prefixRounds := by omega
      rw [if_neg h3, if_neg h4]
      by_cases h0 : c.suffixRounds = 0
      · have h5 : c.probe - 1 < c.probe - c.t.suffixRounds := by omega
        have h6 : r < R - c.t.suffixRounds := by omega
        rw [if_pos h5, if_pos h6]
      · have h5 : ¬ c.probe - 1 < c.probe - c.t.suffixRounds := by omega
        have h6 : ¬ r < R - c.t.suffixRounds := by omega
        rw [if_neg h5, if_neg h6]
        congr 1
        omega
    · rw [if_neg hlast, hw _ (c.probeRound_lt hR hr) (c.phase_probeRound hR hr)]
      have hin := (c.round_checked c.admits_probe.1 (le_refl _) (c.probeRound_lt hR hr)).width
      have hne : c.probeRound r R + 1 ≠ c.probe := by
        have hprobe : c.probe = c.t.minRounds + 2 := if_pos hrep
        have hchain := c.onChain hrep
        unfold probeRound
        split
        · omega
        · split <;> omega
      rw [hin, if_neg hne]
      unfold probeRound IngestSetup.forwardWidth
      by_cases hpre : r < c.prefixRounds
      · simp only [if_pos hpre]
      · rw [if_neg hpre]
        split
        · rw [if_neg (lt_irrefl _)]
        · have h3 : ¬ c.probe - c.suffixRounds + (r + c.suffixRounds - R) < c.prefixRounds := by omega
          rw [if_neg h3]

/-! ## Every round is as it was checked -/

/-- Every round of every shot has a round of the probe of its own phase, whose round before is as
wide as its own. -/
theorem exists_probe_neighbour {r R : Nat} (hR : c.t.Admits R) (hr : r < R) :
    ∃ r' < c.probe, c.t.phase r' c.probe = c.t.phase r R ∧ (r' = 0 ↔ r = 0) ∧
      (0 < r → widthOf c.t (r' - 1) c.probe = widthOf c.t (r - 1) R) := by
  cases hrep : c.repeats with
  | false =>
    -- without a repeating phase every shot is the probe
    have h1 := c.fixed_eq c.admits_probe hrep
    have h2 := c.fixed_eq hR hrep
    have hRp : R = c.probe := by omega
    subst hRp
    exact ⟨r, hr, rfl, Iff.rfl, fun _ => rfl⟩
  | true =>
    have hfit := c.prefix_add_suffix_lt hR hrep
    have hprobe : c.probe = c.t.minRounds + 2 := if_pos hrep
    have hchain := c.onChain hrep
    have hs := c.suffixRounds_eq
    have hp : c.prefixRounds = c.t.prefixRounds := rfl
    -- a round behind the first is as wide as its phase says, in either shot
    have hbefore : ∀ r' < c.probe, 0 < r → 0 < r' → c.forwardWidth (r' - 1) = c.forwardWidth (r - 1) →
        widthOf c.t (r' - 1) c.probe = widthOf c.t (r - 1) R := by
      intro r' hr' h0 h0' heq
      rw [c.width_eq hR (by omega), c.width_eq c.admits_probe (by omega), if_neg (by omega),
        if_neg (by omega), heq]
    by_cases hbulk : c.prefixRounds < r ∧ r + c.suffixRounds < R
    · -- A bulk round after another one: the second bulk round of the probe.
      refine ⟨c.prefixRounds + 1, by omega, ?_, by omega, fun h0 => ?_⟩
      · unfold TemplateData.phase
        have h1 : ¬ c.prefixRounds + 1 < c.t.prefixRounds := by omega
        have h2 : c.prefixRounds + 1 < c.probe - c.t.suffixRounds := by omega
        have h3 : ¬ r < c.t.prefixRounds := by omega
        have h4 : r < R - c.t.suffixRounds := by omega
        rw [if_neg h1, if_pos h2, if_neg h3, if_pos h4]
      · refine hbefore _ (by omega) h0 (by omega) ?_
        unfold IngestSetup.forwardWidth
        rw [if_neg (by omega), if_neg (by omega)]
    · refine ⟨c.probeRound r R, c.probeRound_lt hR hr, c.phase_probeRound hR hr, ?_, fun h0 => ?_⟩
      · unfold probeRound
        split
        · rfl
        · split <;> omega
      · refine hbefore _ (c.probeRound_lt hR hr) h0 ?_ ?_
        · unfold probeRound
          split
          · exact h0
          · split <;> omega
        · unfold probeRound IngestSetup.forwardWidth
          split
          · rfl
          · split
            · rw [show r = c.prefixRounds by omega]
            · rw [if_neg (by omega), if_neg (by omega)]

/-- What the constructor found of the probes holds in every shot. -/
theorem round_measured {r R : Nat} (hR : c.t.Admits R) (hr : r < R) : c.RoundChecked r R := by
  obtain ⟨r', hr', hphase, hzero, hbefore⟩ := c.exists_probe_neighbour hR hr
  have hc := c.round_checked c.admits_probe.1 (le_refl _) hr'
  have hwidth : widthOf c.t r' c.probe = widthOf c.t r R := by
    rw [c.widthOf_eq hR hr, c.widthOf_eq c.admits_probe hr', hphase]
  have hrows : rowsOfRound c.t r' c.probe = rowsOfRound c.t r R := by
    rw [c.rowsOfRound_eq hR hr, c.rowsOfRound_eq c.admits_probe hr', hphase]
  have hd : dOf c.t r' c.probe = dOf c.t r R := by rw [dOf, dOf, hphase]
  refine ⟨c.width_eq hR hr, fun hD => ?_, fun hD => ?_, fun hD => ?_⟩
  · obtain ⟨h1, h2⟩ := hc.rows hD
    refine ⟨by omega, fun h0 => ?_⟩
    have := h2 (by omega)
    rw [hbefore h0] at this
    omega
  · intro index hi hne
    have := hc.index hD index (by rwa [hd]) hne
    rw [hwidth] at this
    by_cases h0 : r = 0
    · rw [if_pos h0]
      rwa [if_pos (hzero.mpr h0)] at this
    · rw [if_neg h0]
      rwa [if_neg (by omega), hbefore (by omega)] at this
  · rw [← hd, ← hrows]
    exact hc.count hD

/-! ## Bounds -/

theorem lastWidth_le_maxWidth : c.lastWidth ≤ c.maxWidth :=
  (le_max_left _ _).trans le_foldl_max.1

theorem forwardWidth_le_maxWidth (r : Nat) : c.forwardWidth r ≤ c.maxWidth := by
  unfold IngestSetup.forwardWidth
  split
  · next h => exact le_foldl_max.2 _ (List.mem_map.mpr ⟨r, List.mem_range.mpr h, rfl⟩)
  · exact (le_max_right _ _).trans le_foldl_max.1

/-- Before FINAL, a round that is cut is not the readout round of a shot that does not repeat. -/
def CutBeforeFinal (r : Nat) : Prop := c.repeats = false → r + 1 < c.prefixRounds

theorem minForwardWidth_le {r : Nat} (h : c.CutBeforeFinal r) :
    c.minForwardWidth ≤ c.forwardWidth r := by
  unfold IngestSetup.minForwardWidth IngestSetup.forwardWidth
  cases hrep : c.repeats with
  | true =>
    simp only [if_true]
    split
    · next hr => exact foldl_min_le.2 _ (List.mem_map.mpr ⟨r, List.mem_range.mpr hr, rfl⟩)
    · exact foldl_min_le.1
  | false =>
    have hr := h hrep
    simp only [Bool.false_eq_true, if_false]
    rw [if_pos (by omega)]
    exact foldl_min_le.2 _ (List.mem_map.mpr ⟨r, List.mem_range.mpr (by omega), rfl⟩)

theorem one_le_minForwardWidth : 1 ≤ c.minForwardWidth := by
  refine le_foldl_min_iff.mpr ⟨?_, fun a ha => ?_⟩
  · split
    · next hrep => exact c.one_le_bulkWidth hrep
    · exact c.one_le_lastWidth
  · obtain ⟨r, hr, rfl⟩ := List.mem_map.mp ha
    refine c.one_le_prefixWidth ?_
    have := List.mem_range.mp hr
    split at this <;> omega

def readoutReach : Nat := c.lastWidth / c.minForwardWidth

theorem stagedSlots_eq : c.stagedSlots = c.suffixRounds + 4 + c.readoutReach := rfl

/-- What `form_detectors` looks up is of a round of the probe, or nothing. -/
theorem kindOf_cases (shot : Option Nat) (r : Nat) (h : ∀ R ∈ shot, r < R) :
    c.kindOf shot r = (0, []) ∨ ∃ r' < c.probe, rowsOfRound c.t r' c.probe ≤ c.maxRows ∧
      c.kindOf shot r = (rowsOfRound c.t r' c.probe, dOf c.t r' c.probe) := by
  have hle : c.prefixRounds + c.suffixRounds ≤ c.probe := by
    have := c.rounds_fit c.admits_probe
    rw [c.suffixRounds_eq]
    exact this
  unfold kindOf
  split
  · next hpre =>
    refine .inr ⟨r, by omega, ?_, rfl⟩
    exact le_foldl_max.2 _ (List.mem_append_left _
      (List.mem_map.mpr ⟨r, List.mem_range.mpr hpre, rfl⟩))
  · split
    · next hpre hsfx =>
      obtain ⟨R, hR, hle'⟩ : ∃ R, shot = some R ∧ R ≤ r + c.suffixRounds := by
        simpa [Option.any_eq_true] using hsfx
      have := h R hR
      subst hR
      refine .inr ⟨_, ?_, ?_, rfl⟩
      · simp only [Option.getD_some]
        omega
      · refine le_foldl_max.2 _ (List.mem_append_right _
          (List.mem_map.mpr ⟨r + c.suffixRounds - R, List.mem_range.mpr (by omega), rfl⟩))
    · cases hrep : c.repeats with
      | false => exact .inl (by simp [IngestSetup.bulkRows, hrep])
      | true =>
        have := c.prefix_add_suffix_lt c.admits_probe hrep
        have hrows : c.bulkRows = rowsOfRound c.t c.prefixRounds c.probe := if_pos hrep
        refine .inr ⟨c.prefixRounds, by omega, ?_, by rw [hrows]; rfl⟩
        rw [← hrows]
        exact (le_max_left _ _).trans le_foldl_max.1

theorem kindOf_le_maxRows {shot : Option Nat} {r : Nat} (h : ∀ R ∈ shot, r < R) :
    (c.kindOf shot r).1 ≤ c.maxRows := by
  obtain he | ⟨r', -, hle, he⟩ := c.kindOf_cases shot r h
  · simp [he]
  · rw [he]
    exact hle

/-- A `D_sparse` has as many rows as its round has detectors. -/
theorem count_kindOf {shot : Option Nat} {r : Nat} (hD : c.hasD = true) (h : ∀ R ∈ shot, r < R) :
    (c.kindOf shot r).2.count (-1) = (c.kindOf shot r).1 := by
  obtain he | ⟨r', hr', -, he⟩ := c.kindOf_cases shot r h
  · simp [he]
  · rw [he]
    exact (c.round_measured c.admits_probe hr').count hD

theorem le_ringRounds : (c.highest - c.lowest).toNat + max c.suffixRounds 1 +
    (c.maxViews + 1) * c.period.toNat + (c.recordLimit + c.maxWidth) / c.minForwardWidth + 1 +
    c.stagedSlots ≤ c.ringRounds := by
  obtain ⟨m, hm, hle⟩ := powerOfTwoAtLeast_spec ((c.highest - c.lowest).toNat +
    max c.suffixRounds 1 + (c.maxViews + 1) * c.period.toNat +
    (c.recordLimit + c.maxWidth) / c.minForwardWidth + 1 + c.stagedSlots)
  rw [IngestSetup.ringRounds, hm]
  exact hle

/-- The mask of a round is its remainder. -/
theorem land_ringRounds (r : Nat) : r &&& (c.ringRounds - 1) = r % c.ringRounds :=
  land_powerOfTwoAtLeast _ r

/-! ## Offsets -/

@[grind =] def forwardOffset : Nat → Nat
  | 0 => 0
  | r + 1 => forwardOffset r + c.forwardWidth r

@[simp] theorem forwardOffset_zero : c.forwardOffset 0 = 0 := rfl

theorem forwardOffset_succ (r : Nat) :
    c.forwardOffset (r + 1) = c.forwardOffset r + c.forwardWidth r := rfl

@[grind =] def rowsBefore (shot : Option Nat) : Nat → Nat
  | 0 => 0
  | r + 1 => rowsBefore shot r + (c.kindOf shot r).1

theorem measurementOffset_eq {r R : Nat} (hR : c.t.Admits R) (hr : r < R) :
    c.t.measurementOffset r R = c.forwardOffset r := by
  induction r with
  | zero => exact sumBefore_zero _ _
  | succ r ih =>
    have h := sumBefore_succ PhaseChunks.width (c.rounds_fit hR) (c.context.eq_prefixRounds hR)
      (show r < R by omega)
    have hw := c.widthOf_eq hR (show r < R by omega)
    rw [c.width_eq hR (by omega), if_neg (by omega)] at hw
    have hih := ih (by omega)
    unfold TemplateData.measurementOffset at hih ⊢
    rw [h, hih, forwardOffset_succ, hw]
    push_cast
    rfl

theorem rowOffset_eq {r R : Nat} (hR : c.t.Admits R) (hr : r ≤ R) :
    c.t.rowOffset r R = c.rowsBefore (some R) r := by
  induction r with
  | zero => exact sumBefore_zero _ _
  | succ r ih =>
    have h := sumBefore_succ PhaseChunks.rows (c.rounds_fit hR) (c.context.eq_prefixRounds hR) hr
    have hih := ih (by omega)
    unfold TemplateData.rowOffset at hih ⊢
    rw [h, hih, rowsBefore, c.kindOf_eq hR hr, c.rowsOfRound_eq hR hr]
    push_cast
    rfl

theorem forwardOffset_mono {a b : Nat} (h : a ≤ b) : c.forwardOffset a ≤ c.forwardOffset b := by
  induction h with
  | refl => exact le_refl _
  | step _ ih => exact ih.trans (Nat.le_add_right _ _)

/-- Rounds cut before FINAL hold at least the narrowest width each. -/
theorem mul_minForwardWidth_le {a b : Nat} (hab : a ≤ b) (h : ∀ q < b, c.CutBeforeFinal q) :
    c.forwardOffset a + (b - a) * c.minForwardWidth ≤ c.forwardOffset b := by
  induction b, hab using Nat.le_induction with
  | base => simp
  | succ b hab ih =>
    have := ih fun q hq => h q (by omega)
    have hw := c.minForwardWidth_le (h b (by omega))
    rw [forwardOffset_succ, show b + 1 - a = b - a + 1 by omega, Nat.add_mul]
    omega

end IngestCore

end CudaqQec
