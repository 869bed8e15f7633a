import CudaqQec.Commitment.Relative

/-!
# The parallel-window pattern

`parallel_window` lowers to two layers. Windows `A[k]` commit `commit_rounds` rounds between buffers,
with nothing to wait for; windows `B[k]` fill the gaps of `gap_rounds` rounds between them and wait
for the `A` windows on both sides: `A[k - 1]` sends `forward` into `B[k]`'s first round, and `A[k]`
sends `backward` the first of its own rounds, which `B[k]` imports.

* `parallelWindowRequests_eq_ok`: the requests that the pattern's parameters give.
* `checkRequest_A_iff`: when they are valid.
* `finalizes_A`, `finalizes_B`: the rows each of the two layers finalizes.
-/

namespace CudaqQec

open Checked WindowRequest

/-! ## The pattern -/

/-- The parameters of the pattern that its requests read. -/
structure ParallelWindowParams where
  commitRounds : Nat
  bufferRounds : Nat
  gapRounds : Option Nat := none
  boundaryPrior : Option ℚ := none
  inputBoundary : Option InputBoundary := none
  mergeIdentical : Option Bool := none
  conflictingParallel : Option ParallelResolution := none
  deriving DecidableEq

namespace ParallelWindowParams

variable (params : ParallelWindowParams)

/-- The gap, `commit_rounds + 2 buffer_rounds` unless it is set. -/
def gap : Nat := params.gapRounds.getD (params.commitRounds + 2 * params.bufferRounds)

def checkCount (key : String) (count : Nat) : Except Error Unit := do
  throwIf (count < 1) (.runtimeError ("parallel_window: " ++ key ++ " must be at least 1"))
  throwIf ((count : Int) > windowRoundLimit)
    (.runtimeError ("parallel_window: " ++ key ++ " must be at most " ++
      toString windowRoundLimit))

/-- The schema's rules. -/
def validate : Except Error Unit := do
  checkCount "buffer_rounds" params.bufferRounds
  checkCount "commit_rounds" params.commitRounds
  checkCount "gap_rounds" (params.gapRounds.getD 1)
  throwIf (params.boundaryPrior.any fun p => ¬ (0 < p ∧ p < 1))
    (.runtimeError "parallel_window: boundary_prior must be strictly between 0 and 1")
  throwIf (params.boundaryPrior ≠ none ∧ params.inputBoundary = some .truncate)
    (.runtimeError ("parallel_window: boundary_prior is for input_boundary columns; " ++
      "truncate keeps each crossing fault's own prior"))

end ParallelWindowParams

/-- The chance that an odd number of a band's faults fire on row `r`, fault by fault. -/
def oddPrior (chunk : ExtendedDem) (r : Nat) : ℚ :=
  (List.range chunk.H.numCols).foldl (fun q c =>
    (List.range (chunk.H.count r c)).foldl (fun q _ =>
      q + chunk.errorRates.getD c 0 - 2 * q * chunk.errorRates.getD c 0) q) 0

/-- `crossing_prior`: the largest such chance over the rows faults cross into. -/
def crossingPrior (t : TemplateData) : ℚ :=
  let R := if t.repeats then t.minRounds + 2 else t.minRounds
  ((List.range (R - 1)).flatMap fun r =>
    let band := (t.chunk r R).seamBand t.spec.seam.fromSeam
    (List.range' band.1 (band.2 - band.1)).map (oddPrior (t.chunk r R))).foldl max 0

/-- The prior of `A`'s open input. -/
def parallelPrior (params : ParallelWindowParams) (t : TemplateData) : Except Error (Option ℚ) :=
  if params.inputBoundary = some .truncate then .ok none
  else
    match params.boundaryPrior with
    | some prior => .ok (some prior)
    | none =>
      if 0 < crossingPrior t ∧ crossingPrior t < 1 then .ok (some (crossingPrior t))
      else .error (.invalidArgument ("parallel_window: no fault crosses into the next round with a " ++
        "prior strictly between 0 and 1, so A's open input has no default boundary_prior; set one"))

def ParallelWindowParams.columns (params : ParallelWindowParams) : ColumnOptions :=
  ⟨params.mergeIdentical.getD false, params.conflictingParallel.getD .reject⟩

/-- `A`'s request, with the prior of its open input. -/
def parallelRequestA (params : ParallelWindowParams) (prior : Option ℚ) : WindowRequest where
  period := params.commitRounds + params.gap
  commit := some ⟨0, params.commitRounds⟩
  buffers := [⟨-params.bufferRounds, 0⟩, ⟨params.commitRounds,
    params.commitRounds + params.bufferRounds⟩]
  input :=
    { disposition := some .opened
      prior := prior
      boundary := if params.inputBoundary = some .truncate then some .truncate else none }
  output := { disposition := some .opened }
  sends := [{ id := "forward" }, { id := "backward" }]
  columns := params.columns

def parallelRequestB (params : ParallelWindowParams) : WindowRequest where
  period := params.commitRounds + params.gap
  offset := -params.gap
  commit := some ⟨0, params.gap⟩
  input := { disposition := some .closed }
  output := { disposition := some .closed }
  columns := params.columns

def parallelWindowRequests (params : ParallelWindowParams) (t : TemplateData) :
    Except Error (WindowRequest × WindowRequest) := do
  params.validate
  let prior ← parallelPrior params t
  return (parallelRequestA params prior, parallelRequestB params)

def parallelLayers (id : String) (a b : WindowRequest) : List WindowLayer :=
  [⟨id ++ ".A", a⟩, ⟨id ++ ".B", b⟩]

def parallelEdges (id : String) : List TaskGraphEdge :=
  [⟨id ++ ".A", "forward", id ++ ".B", "receive_0", -1⟩,
    ⟨id ++ ".A", "backward", id ++ ".B", "receive_1", 0⟩]

/-! ## Its requests -/

/-- The checked parameters: counts of at least one round, and a valid prior where one is needed. -/
structure ParallelWindowParams.Checked (params : ParallelWindowParams) (prior : Option ℚ) :
    Prop where
  commit_pos : 1 ≤ params.commitRounds
  commit_le : (params.commitRounds : Int) ≤ windowRoundLimit
  buffer_pos : 1 ≤ params.bufferRounds
  buffer_le : (params.bufferRounds : Int) ≤ windowRoundLimit
  gap_pos : 1 ≤ params.gap
  prior : params.inputBoundary = some .truncate ∧ prior = none ∨
    params.inputBoundary ≠ some .truncate ∧ ∃ p, prior = some p ∧ 0 < p ∧ p < 1

theorem checkCount_eq_ok {key : String} {count : Nat} {u : Unit} :
    ParallelWindowParams.checkCount key count = .ok u ↔
      1 ≤ count ∧ (count : Int) ≤ windowRoundLimit := by
  simp only [ParallelWindowParams.checkCount, bind_eq_ok, throwIf_eq_ok]
  constructor
  · rintro ⟨_, h1, h2⟩
    omega
  · intro h
    exact ⟨(), by omega, by omega⟩

theorem parallelWindowRequests_eq_ok {params : ParallelWindowParams} {t : TemplateData}
    {ab : WindowRequest × WindowRequest} (h : parallelWindowRequests params t = .ok ab) :
    ∃ prior, params.Checked prior ∧
      ab = (parallelRequestA params prior, parallelRequestB params) := by
  simp only [parallelWindowRequests, bind_eq_ok, ParallelWindowParams.validate, checkCount_eq_ok,
    throwIf_eq_ok] at h
  obtain ⟨_, ⟨_, hb, _, hc, _, hg, _, hp, hpt⟩, prior, hprior, hok⟩ := h
  refine ⟨prior, ⟨hc.1, hc.2, hb.1, hb.2, ?_, ?_⟩, (Except.ok.inj hok).symm⟩
  · unfold ParallelWindowParams.gap
    cases hgap : params.gapRounds with
    | none => simp only [Option.getD_none]; omega
    | some g => simpa [hgap] using hg.1
  · unfold parallelPrior at hprior
    split at hprior
    · next htr => exact .inl ⟨htr, (Except.ok.inj hprior).symm⟩
    · next htr =>
      refine .inr ⟨htr, ?_⟩
      split at hprior
      · next p hpp =>
        refine ⟨p, (Except.ok.inj hprior).symm, ?_⟩
        simpa [hpp] using hp
      · split at hprior
        · next hcross => exact ⟨_, (Except.ok.inj hprior).symm, hcross⟩
        · cases hprior

/-- The sums of round counts that become a period or a round of a request stay within the limit. -/
def ParallelWindowParams.Fits (params : ParallelWindowParams) : Prop :=
  (params.commitRounds + params.gap : Int) ≤ windowRoundLimit ∧
    (params.commitRounds + params.bufferRounds : Int) ≤ windowRoundLimit

instance (params : ParallelWindowParams) : Decidable params.Fits :=
  inferInstanceAs (Decidable (_ ∧ _))

section
variable {params : ParallelWindowParams} {prior : Option ℚ}

theorem sortedZones_A (h : params.Checked prior) : (parallelRequestA params prior).sortedZones =
    [⟨-params.bufferRounds, 0⟩, ⟨0, params.commitRounds⟩,
      ⟨params.commitRounds, params.commitRounds + params.bufferRounds⟩] := by
  have h1 := h.commit_pos
  have h2 := h.buffer_pos
  have e1 : ¬ ((params.commitRounds : Int) ≤ 0) := by omega
  have e2 : (-(params.bufferRounds : Int)) ≤ 0 := by omega
  simp only [sortedZones, sortRounds, parallelRequestA, commitZone, Option.getD_some,
    List.cons_append, List.nil_append, List.insertionSort_cons, List.insertionSort_nil,
    List.orderedInsert_nil, List.orderedInsert_cons, if_neg e1, if_pos e2]

theorem zoneSpan_A (h : params.Checked prior) : (parallelRequestA params prior).zoneSpan =
    ⟨-params.bufferRounds, params.commitRounds + params.bufferRounds⟩ := by
  have h1 := h.commit_pos
  have h2 := h.buffer_pos
  simp only [zoneSpan, parallelRequestA, commitZone, List.foldl_cons, List.foldl_nil,
    RoundRange.hull, Option.getD_some]
  ext
  · simp only
    omega
  · simp only
    omega

theorem checkSends_A (h : params.Checked prior) (window : RoundRange) :
    checkSends (parallelRequestA params prior) window (parallelRequestA params prior).sends [] =
      .ok () := by
  have h1 := h.commit_pos
  have h2 := h.buffer_pos
  have hne : (-(params.bufferRounds : Int)) ≠ params.commitRounds := by omega
  have htrail : (parallelRequestA params prior).trailingBuffer =
      some ⟨params.commitRounds, params.commitRounds + params.bufferRounds⟩ := by
    simp [trailingBuffer, parallelRequestA, commitZone, hne]
  simp [parallelRequestA, checkSends, checkSend, SendRequest.isDefault, throwIf] at htrail ⊢
  simp [htrail]

/-- The pattern's requests are valid exactly when their sums stay within the limit. -/
theorem checkRequest_A_iff (h : params.Checked prior) :
    checkRequest (parallelRequestA params prior) = .ok () ↔ params.Fits := by
  have h1 := h.commit_pos
  have h2 := h.buffer_pos
  have h3 := h.gap_pos
  have h4 := h.commit_le
  have h5 := h.buffer_le
  have hlim : windowRoundLimit = 2 ^ 31 := rfl
  have hcz : (parallelRequestA params prior).commitZone = ⟨0, params.commitRounds⟩ := rfl
  simp only [checkRequest, bind_eq_ok, checkAnchor_eq_ok, forM_eq_ok, checkZones_eq_ok,
    throwIf_eq_ok, checkWithin_eq_ok, sortedZones_A h, checkSends_A h, and_true]
  constructor
  · rintro ⟨_, ha, _, hbuf, -⟩
    have hp : ((params.commitRounds + params.gap : Nat) : Int) ≤ windowRoundLimit := by
      simpa [parallelRequestA] using ha.period_le
    obtain ⟨_, -, _, hstop, -⟩ := hbuf ⟨params.commitRounds,
      params.commitRounds + params.bufferRounds⟩ (by simp [parallelRequestA])
    exact ⟨by omega, hstop.2⟩
  · rintro ⟨hf1, hf2⟩
    refine ⟨(), ⟨?_, ?_, ?_, ?_, rfl, ?_, ?_, ?_⟩, (), ?_, (), by simp, (),
      by simp [parallelRequestA], (), by simp [parallelRequestA], (), ?_, (), rfl⟩
    · simp only [parallelRequestA]; omega
    · simp only [parallelRequestA]; omega
    · simp only [parallelRequestA]; omega
    · simp only [parallelRequestA]; omega
    · rw [hcz]; simp only; omega
    · rw [hcz]; simp only; omega
    · rw [hcz]; simp only; omega
    · intro b hb
      simp only [parallelRequestA, List.mem_cons, List.not_mem_nil, or_false] at hb
      rcases hb with rfl | rfl
      · exact ⟨(), by simp only; omega, (), by simp only; omega, not_le.mpr (by simp only; omega)⟩
      · exact ⟨(), by simp only; omega, (), by simp only; omega, not_le.mpr (by simp only; omega)⟩
    · rcases h.prior with ⟨htr, rfl⟩ | ⟨htr, p, rfl, hp⟩
      · simp [checkInput, parallelRequestA, htr, throwIf]
      · simp [checkInput, parallelRequestA, htr, throwIf, hp]

theorem checkRequest_B (h : params.Checked prior) (hf : params.Fits) :
    checkRequest (parallelRequestB params) = .ok () := by
  have h1 := h.commit_pos
  have h3 := h.gap_pos
  have hlim : windowRoundLimit = 2 ^ 31 := rfl
  have hcz : (parallelRequestB params).commitZone = ⟨0, params.gap⟩ := rfl
  have hsort : (parallelRequestB params).sortedZones = [⟨0, params.gap⟩] := rfl
  obtain ⟨hf1, hf2⟩ := hf
  simp only [checkRequest, bind_eq_ok, checkAnchor_eq_ok, forM_eq_ok, checkZones_eq_ok,
    throwIf_eq_ok, hsort]
  refine ⟨(), ⟨?_, ?_, ?_, ?_, rfl, ?_, ?_, ?_⟩, (), by simp [parallelRequestB], (), by simp, (),
    by simp [parallelRequestB], (), by simp [parallelRequestB], (),
    by simp [checkInput, parallelRequestB, throwIf], (), rfl, rfl⟩
  · simp only [parallelRequestB]; omega
  · simp only [parallelRequestB]; omega
  · simp only [parallelRequestB]; omega
  · simp only [parallelRequestB]; omega
  · rw [hcz]; simp only; omega
  · rw [hcz]; simp only; omega
  · rw [hcz]; simp only; omega

/-! ## Its windows -/

def ParallelWindowParams.period (params : ParallelWindowParams) : Int :=
  params.commitRounds + params.gap

theorem anchor_A (k : Int) : (parallelRequestA params prior).anchor k = k * params.period :=
  zero_add _

theorem anchor_B (k : Int) :
    (parallelRequestB params).anchor k = k * params.period - params.gap := by
  show -(params.gap : Int) + k * params.period = _
  omega

theorem zoneSpan_B : (parallelRequestB params).zoneSpan = ⟨0, params.gap⟩ := rfl

theorem mem_instances_A (h : params.Checked prior) (hf : params.Fits) {R : Nat} {k : Int} :
    k ∈ (parallelRequestA params prior).instances R ↔
      0 < k * params.period + params.commitRounds ∧ k * params.period < R := by
  have hv := (checkRequest_valid ((checkRequest_A_iff h).mpr hf)).toAnchored
  have hcz : (parallelRequestA params prior).commitZone = ⟨0, params.commitRounds⟩ := rfl
  rw [mem_instances hv, anchor_A, hcz]
  simp only [add_zero]

theorem mem_instances_B (h : params.Checked prior) (hf : params.Fits) {R : Nat} {k : Int} :
    k ∈ (parallelRequestB params).instances R ↔
      0 < k * params.period ∧ k * params.period - params.gap < R := by
  have hv := (checkRequest_valid (checkRequest_B h hf)).toAnchored
  have hcz : (parallelRequestB params).commitZone = ⟨0, params.gap⟩ := rfl
  rw [mem_instances hv, anchor_B, hcz]
  simp only [add_zero, sub_add_cancel]

/-- A round lies in one period. -/
theorem period_unique {P q j k : Int} (hj : 0 ≤ q - j * P ∧ q - j * P < P)
    (hk : 0 ≤ q - k * P ∧ q - k * P < P) : j = k := by
  have hP : 0 < P := by omega
  have h1 : (j - k) * P < 1 * P := by linarith [sub_mul j k P]
  have h2 : (k - j) * P < 1 * P := by linarith [sub_mul k j P]
  have h3 := lt_of_mul_lt_mul_right h1 hP.le
  have h4 := lt_of_mul_lt_mul_right h2 hP.le
  omega

variable (id : String)

theorem parallelLayers_graph (h : params.Checked prior) (hf : params.Fits) :
    WindowGraph (parallelLayers id (parallelRequestA params prior) (parallelRequestB params))
      (parallelEdges id) where
  offsets := by simp [parallelEdges, windowRoundLimit]
  requests := by
    intro l hl
    simp only [parallelLayers, List.mem_cons, List.not_mem_nil, or_false] at hl
    rcases hl with rfl | rfl
    · exact (checkRequest_A_iff h).mpr hf
    · exact checkRequest_B h hf
  nodes := by simp [parallelLayers]
  producers := by simp [parallelEdges, parallelLayers, parallelRequestA]
  consumers := by simp [parallelEdges, parallelLayers]

end

/-! ## Its windows in a shot -/

section
variable (t : TemplateData) (params : ParallelWindowParams) (prior : Option ℚ) (id : String) (R : Nat)

def parallelSchedule : WindowSchedule :=
  scheduleOf t (parallelLayers id (parallelRequestA params prior) (parallelRequestB params))
    (parallelEdges id) R

/-- `A[k]`. -/
def windowA (k : Int) : ScheduledWindow :=
  scheduledOf t (parallelLayers id (parallelRequestA params prior) (parallelRequestB params))
    (parallelEdges id) R ⟨id ++ ".A", parallelRequestA params prior⟩ k

/-- `B[k]`. -/
def windowB (k : Int) : ScheduledWindow :=
  scheduledOf t (parallelLayers id (parallelRequestA params prior) (parallelRequestB params))
    (parallelEdges id) R ⟨id ++ ".B", parallelRequestB params⟩ k

end

section
variable {t : TemplateData} {params : ParallelWindowParams} {prior : Option ℚ} {id : String}
  {R : Nat}

theorem mem_parallelSchedule {w : ScheduledWindow} :
    w ∈ (parallelSchedule t params prior id R).windows ↔
      (∃ k ∈ (parallelRequestA params prior).instances R, w = windowA t params prior id R k) ∨
        ∃ k ∈ (parallelRequestB params).instances R, w = windowB t params prior id R k := by
  rw [parallelSchedule, mem_scheduleOf]
  simp only [parallelLayers, List.mem_cons, List.not_mem_nil, or_false, exists_eq_or_imp,
    exists_eq_left, eq_comm (a := w)]
  exact Iff.rfl

theorem mem_commit_A {k q : Int} : q ∈ (windowA t params prior id R k).commit ↔
    0 ≤ q ∧ q < R ∧ 0 ≤ q - k * params.period ∧ q - k * params.period < params.commitRounds := by
  show q ∈ clipRounds ⟨0, params.commitRounds⟩ ((parallelRequestA params prior).anchor k) R ↔ _
  rw [mem_clipRounds, anchor_A]
  exact Iff.rfl

theorem mem_commit_B {k q : Int} : q ∈ (windowB t params prior id R k).commit ↔
    0 ≤ q ∧ q < R ∧ 0 ≤ q - (k * params.period - params.gap) ∧
      q - (k * params.period - params.gap) < params.gap := by
  show q ∈ clipRounds ⟨0, params.gap⟩ ((parallelRequestB params).anchor k) R ↔ _
  rw [mem_clipRounds, anchor_B]
  exact Iff.rfl

/-- A window that commits a round: an `A` window of the round's period, or a `B` window of it. -/
theorem committer_cases {p : ScheduledWindow} (hp : p ∈ (parallelSchedule t params prior id R).windows)
    {q k : Int} (hq : q ∈ p.commit) (hk : 0 ≤ q - k * params.period ∧
      q - k * params.period < params.period) (hg : 0 < params.gap) :
    p = windowA t params prior id R k ∧ q - k * params.period < params.commitRounds ∨
      p = windowB t params prior id R (k + 1) ∧ params.commitRounds ≤ q - k * params.period := by
  have hP : params.period = params.commitRounds + params.gap := rfl
  rcases mem_parallelSchedule.mp hp with ⟨j, -, rfl⟩ | ⟨j, -, rfl⟩
  · rw [mem_commit_A] at hq
    obtain rfl := period_unique (j := j) (by omega) hk
    exact .inl ⟨rfl, by omega⟩
  · rw [mem_commit_B] at hq
    have hj : (j - 1) * params.period = j * params.period - params.period := by ring
    obtain rfl := period_unique (j := j - 1) (by omega) hk
    refine .inr ⟨by rw [sub_add_cancel], by omega⟩

theorem finalizes_A (h : params.Checked prior) (hf : params.Fits) {k : Int}
    (hR0 : 0 < R) (hk : k ∈ (parallelRequestA params prior).instances R) {q : Int} (h0 : 0 ≤ q)
    (hq : q < R) {own incoming : Bool} (hin : incoming = true → 0 < q) :
    finalizes (windowA t params prior id R k) q own incoming = true ↔
      (own = true ∨ incoming = true) ∧
      (own = true → 0 ≤ q - k * params.period ∧ q - k * params.period < params.commitRounds) ∧
      (incoming = true → 1 ≤ q - k * params.period ∧
        q - k * params.period ≤ params.commitRounds) := by
  have hv := checkRequest_valid ((checkRequest_A_iff h).mpr hf)
  have h1 := h.commit_pos
  have h2 := h.buffer_pos
  have hcz : (parallelRequestA params prior).commitZone = ⟨0, params.commitRounds⟩ := rfl
  rw [windowA, finalizes_iff (l := ⟨id ++ ".A", parallelRequestA params prior⟩) hv hR0 hk h0 hq hin]
  simp only [FinalizesAt, anchor_A, hcz, zoneSpan_A h, RoundRange.mem_def]
  generalize q - k * params.period = d
  cases own <;> cases incoming <;> simp <;> omega

theorem finalizes_B (h : params.Checked prior) (hf : params.Fits) {k : Int}
    (hR0 : 0 < R) (hk : k ∈ (parallelRequestB params).instances R) {q : Int} (h0 : 0 ≤ q)
    (hq : q < R) {own incoming : Bool} (hin : incoming = true → 0 < q) :
    finalizes (windowB t params prior id R k) q own incoming = true ↔
      own = true ∧ 0 ≤ q - (k * params.period - params.gap) ∧
        q - (k * params.period - params.gap) < params.gap ∨
      incoming = true ∧ 1 ≤ q - (k * params.period - params.gap) ∧
        q - (k * params.period - params.gap) ≤ params.gap := by
  have hv := checkRequest_valid (checkRequest_B h hf)
  have hcz : (parallelRequestB params).commitZone = ⟨0, params.gap⟩ := rfl
  have hin' : (parallelRequestB params).input.disposition.getD .opened = .closed := rfl
  rw [windowB, finalizes_iff (l := ⟨id ++ ".B", parallelRequestB params⟩) hv hR0 hk h0 hq hin]
  simp only [FinalizesAt, anchor_B, hcz, zoneSpan_B, RoundRange.mem_def, hin']
  generalize q - (k * params.period - params.gap) = d
  cases own <;> cases incoming <;> grind

end

end CudaqQec
