import CudaqQec.Commitment.ParallelWindow

/-!
# The checks on the parallel-window pattern

Every round of a shot lies in one period: its first `commit_rounds` rounds are committed by `A[k]`,
the rest by `B[k + 1]`. A row is finalized by the window that commits the faults on it; where two
windows do, it is the `B` window, which learns of the other's faults by `forward` or `backward`.

* `parallelWindow_passes_iff`: exactly when a shot's schedule passes the four checks.
* `rowsAscend_of_fits`: with room for prefix and suffix no row number wraps around.
-/

namespace CudaqQec

open Checked WindowRequest

section
variable {t : TemplateData} {params : ParallelWindowParams} {prior : Option ℚ} {id : String}
  {R : Nat}

/-! ## Its sends -/

theorem relativeSendRounds_forward (h : params.Checked prior) :
    relativeSendRounds t (parallelRequestA params prior) { id := "forward" } =
      [⟨params.commitRounds, params.commitRounds + t.maxSpan⟩] := by
  have h2 := h.buffer_pos
  have hne : (-(params.bufferRounds : Int)) ≠ params.commitRounds := by omega
  have htrail : (parallelRequestA params prior).trailingBuffer =
      some ⟨params.commitRounds, params.commitRounds + params.bufferRounds⟩ := by
    simp [trailingBuffer, parallelRequestA, commitZone, hne]
  simp [relativeSendRounds, SendRequest.isDefault, htrail]

theorem relativeSendRounds_backward :
    relativeSendRounds t (parallelRequestA params prior) { id := "backward" } =
      [⟨0, t.maxSpan⟩] := by
  simp [relativeSendRounds, SendRequest.isDefault, commitZone, parallelRequestA]

theorem source_forward : EdgeSource
    (parallelLayers id (parallelRequestA params prior) (parallelRequestB params))
    ⟨id ++ ".A", "forward", id ++ ".B", "receive_0", -1⟩
    ⟨id ++ ".A", parallelRequestA params prior⟩ { id := "forward" } where
  mem := by simp [parallelLayers]
  node := rfl
  sends := by simp [parallelRequestA]
  id := rfl

theorem source_backward : EdgeSource
    (parallelLayers id (parallelRequestA params prior) (parallelRequestB params))
    ⟨id ++ ".A", "backward", id ++ ".B", "receive_1", 0⟩
    ⟨id ++ ".A", parallelRequestA params prior⟩ { id := "backward" } where
  mem := by simp [parallelLayers]
  node := rfl
  sends := by simp [parallelRequestA]
  id := rfl

/-- `A[k]` sends the first round after its commit zone to the next `B` window. -/
theorem sendsRound_forward (h : params.Checked prior) (hf : params.Fits) (hspan : t.maxSpan = 1)
    {k q : Int} (h0 : 0 ≤ q) (hq : q < R) (hk : q - k * params.period = params.commitRounds) :
    sendsRound (windowA t params prior id R k) (windowB t params prior id R (k + 1)) q = true := by
  refine (sendsRound_iff (parallelLayers_graph id h hf) source_forward.mem h0 hq).mpr
    ⟨_, by simp [parallelEdges], rfl, rfl, by simp, _, source_forward, ?_⟩
  rw [relativeSendRounds_forward h]
  refine ⟨_, List.mem_singleton_self _, ?_⟩
  rw [anchor_A, hk, RoundRange.mem_def, hspan]
  exact ⟨le_refl _, by simp⟩

theorem sendsRound_backward (h : params.Checked prior) (hf : params.Fits) (hspan : t.maxSpan = 1)
    {k q : Int} (h0 : 0 ≤ q) (hq : q < R) (hk : q - k * params.period = 0) :
    sendsRound (windowA t params prior id R k) (windowB t params prior id R k) q = true := by
  refine (sendsRound_iff (parallelLayers_graph id h hf) source_backward.mem h0 hq).mpr
    ⟨_, by simp [parallelEdges], rfl, rfl, by simp, _, source_backward, ?_⟩
  rw [relativeSendRounds_backward]
  refine ⟨_, List.mem_singleton_self _, ?_⟩
  rw [anchor_A, hk, RoundRange.mem_def, hspan]
  exact ⟨le_refl _, by simp⟩

/-! ## Rows -/

/-- At most one window finalizes a row. -/
theorem finalizer_unique (h : params.Checked prior) (hf : params.Fits) (hR0 : 0 < R)
    {q : Int} (h0 : 0 ≤ q) (hq : q < R) {own incoming : Bool} (hin : incoming = true → 0 < q)
    {w w' : ScheduledWindow} (hw : w ∈ (parallelSchedule t params prior id R).windows)
    (hw' : w' ∈ (parallelSchedule t params prior id R).windows)
    (hfin : finalizes w q own incoming = true) (hfin' : finalizes w' q own incoming = true) :
    w' = w := by
  have hP : params.period = params.commitRounds + params.gap := rfl
  have h1 := h.commit_pos
  have h3 := h.gap_pos
  -- An `A` window finalizes from its anchor on, a `B` window up to the next one.
  have hA : ∀ j, j ∈ (parallelRequestA params prior).instances R →
      finalizes (windowA t params prior id R j) q own incoming = true →
      0 ≤ q - j * params.period ∧ q - j * params.period < params.period := by
    intro j hj hfj
    obtain ⟨hany, ho, hi⟩ := (finalizes_A h hf hR0 hj h0 hq hin).mp hfj
    rcases hany with ht | ht
    · have := ho ht
      omega
    · have := hi ht
      omega
  have hAB : ∀ j j', j ∈ (parallelRequestA params prior).instances R →
      j' ∈ (parallelRequestB params).instances R →
      finalizes (windowA t params prior id R j) q own incoming = true →
      finalizes (windowB t params prior id R j') q own incoming = true → False := by
    intro j j' hj hj' hfj hfj'
    have hj1 : (j' - 1) * params.period = j' * params.period - params.period := by ring
    have hdj := hA j hj hfj
    obtain ⟨-, ho, hi⟩ := (finalizes_A h hf hR0 hj h0 hq hin).mp hfj
    rcases (finalizes_B h hf hR0 hj' h0 hq hin).mp hfj' with ⟨ht, hb⟩ | ⟨ht, hb⟩
    · obtain rfl := period_unique (k := j' - 1) hdj (by omega)
      have := ho ht
      omega
    · have hd := hi ht
      by_cases he : q - (j' * params.period - params.gap) = params.gap
      · obtain rfl := period_unique (k := j') hdj (by omega)
        omega
      · obtain rfl := period_unique (k := j' - 1) hdj (by omega)
        omega
  rcases mem_parallelSchedule.mp hw with ⟨j, hj, rfl⟩ | ⟨j, hj, rfl⟩
  · rcases mem_parallelSchedule.mp hw' with ⟨j', hj', rfl⟩ | ⟨j', hj', rfl⟩
    · rw [period_unique (hA j' hj' hfin') (hA j hj hfin)]
    · exact absurd hfin' fun hn => hAB j j' hj hj' hfin hn
  · rcases mem_parallelSchedule.mp hw' with ⟨j', hj', rfl⟩ | ⟨j', hj', rfl⟩
    · exact absurd hfin fun hn => hAB j' j hj' hj hfin' hn
    · -- Both are `B` windows: the round is one of the window's own, or the first after them.
      have hb : ∀ j, j ∈ (parallelRequestB params).instances R →
          finalizes (windowB t params prior id R j) q own incoming = true →
          0 ≤ q - (j * params.period - params.gap) ∧
            q - (j * params.period - params.gap) ≤ params.gap := by
        intro j hj hfj
        rcases (finalizes_B h hf hR0 hj h0 hq hin).mp hfj with hc | hc <;> omega
      have hbj := hb j hj hfin
      have hbj' := hb j' hj' hfin'
      have hj1 : (j - 1) * params.period = j * params.period - params.period := by ring
      have hj1' : (j' - 1) * params.period = j' * params.period - params.period := by ring
      by_cases he : q - (j * params.period - params.gap) = params.gap
      · by_cases he' : q - (j' * params.period - params.gap) = params.gap
        · rw [period_unique (q := q) (j := j') (k := j) (P := params.period) (by omega) (by omega)]
        · obtain rfl := period_unique (q := q) (j := j) (k := j' - 1) (P := params.period)
            (by omega) (by clear * - hP hbj' hj1' he'; omega)
          omega
      · by_cases he' : q - (j' * params.period - params.gap) = params.gap
        · obtain rfl := period_unique (q := q) (j := j') (k := j - 1) (P := params.period)
            (by omega) (by omega)
          omega
        · have := period_unique (q := q) (j := j' - 1) (k := j - 1) (P := params.period)
            (by omega) (by omega)
          rw [show j' = j by omega]

theorem exists_period (h : params.Checked prior) {q : Int} (h0 : 0 ≤ q) :
    ∃ k, 0 ≤ k * params.period ∧ 0 ≤ q - k * params.period ∧
      q - k * params.period < params.period := by
  have h1 := h.commit_pos
  have hP : 0 < params.period := by
    have : params.period = params.commitRounds + params.gap := rfl
    omega
  have h2 := Int.emod_nonneg q hP.ne'
  have h3 := Int.emod_lt_of_pos q hP
  have h4 := Int.emod_add_mul_ediv q params.period
  have h5 : 0 ≤ q / params.period * params.period :=
    Int.mul_nonneg (Int.ediv_nonneg h0 hP.le) hP.le
  rw [mul_comm] at h4
  exact ⟨q / params.period, h5, by omega, by omega⟩

/-- Every row some fault touches has its finalizer, and the finalizer learns what it needs. -/
theorem rowSettled (h : params.Checked prior) (hf : params.Fits) (hR0 : 0 < R)
    {q : Int} (h0 : 0 ≤ q) (hq : q < R) {own incoming : Bool} (hin : incoming = true → 0 < q)
    (hspan : incoming = true → t.maxSpan = 1) (hany : own = true ∨ incoming = true) :
    RowSettled (parallelSchedule t params prior id R) q own incoming := by
  have hP : params.period = params.commitRounds + params.gap := rfl
  have h1 := h.commit_pos
  have h2 := h.buffer_pos
  have h3 := h.gap_pos
  have hvA := checkRequest_valid ((checkRequest_A_iff h).mpr hf)
  have hvB := checkRequest_valid (checkRequest_B h hf)
  obtain ⟨k, hk0, hkd⟩ := exists_period (q := q) h h0
  have hsucc : (k + 1) * params.period = k * params.period + params.period := by ring
  have hpred : (k - 1) * params.period = k * params.period - params.period := by ring
  have settled : ∀ f ∈ (parallelSchedule t params prior id R).windows, Holds f q →
      finalizes f q own incoming = true →
      (own = true → Learns (parallelSchedule t params prior id R) f q q) →
      (incoming = true → Learns (parallelSchedule t params prior id R) f q (q - 1)) →
      RowSettled (parallelSchedule t params prior id R) q own incoming :=
    fun f hw hh hfin ho hi => ⟨f, hw, hh, hfin,
      fun w hw' _ hfin' => finalizer_unique h hf hR0 h0 hq hin hw hw' hfin hfin', ho, hi⟩
  have hA : k ∈ (parallelRequestA params prior).instances R :=
    (mem_instances_A h hf).mpr ⟨by omega, by omega⟩
  by_cases hcaseA : (own = true → q - k * params.period < params.commitRounds) ∧
      (incoming = true → 1 ≤ q - k * params.period ∧ q - k * params.period ≤ params.commitRounds)
  · -- The row is `A[k]`'s: every fault on it is one of `A[k]`'s own.
    refine settled (windowA t params prior id R k) (mem_parallelSchedule.mpr (.inl ⟨k, hA, rfl⟩))
      (.inl ?_) ?_ ?_ ?_
    · refine (mem_rounds_iff (l := ⟨id ++ ".A", parallelRequestA params prior⟩) hvA hR0 hA).mpr
        ⟨h0, hq, ?_⟩
      simp only [anchor_A, zoneSpan_A h, RoundRange.mem_def]
      rcases hany with ht | ht
      · have := hcaseA.1 ht
        omega
      · have := hcaseA.2 ht
        omega
    · refine (finalizes_A h hf hR0 hA h0 hq hin).mpr ⟨hany, fun ht => ?_, hcaseA.2⟩
      exact ⟨hkd.1, hcaseA.1 ht⟩
    · intro ht p hp hcommit
      have := hcaseA.1 ht
      rcases committer_cases hp hcommit hkd (by omega) with ⟨rfl, -⟩ | ⟨-, hn⟩
      · exact .inl ⟨rfl, rfl⟩
      · omega
    · intro ht p hp hcommit
      have := hcaseA.2 ht
      rcases committer_cases (k := k) hp hcommit (by omega) (by omega) with ⟨rfl, -⟩ | ⟨-, hn⟩
      · exact .inl ⟨rfl, rfl⟩
      · omega
  by_cases hcaseB : params.commitRounds ≤ q - k * params.period
  · -- The row is `B[k + 1]`'s; on its first round `A[k]`'s faults arrive forward.
    have hB : k + 1 ∈ (parallelRequestB params).instances R :=
      (mem_instances_B h hf).mpr ⟨by omega, by omega⟩
    refine settled (windowB t params prior id R (k + 1))
      (mem_parallelSchedule.mpr (.inr ⟨k + 1, hB, rfl⟩)) (.inl ?_) ?_ ?_ ?_
    · refine (mem_rounds_iff (l := ⟨id ++ ".B", parallelRequestB params⟩) hvB hR0 hB).mpr
        ⟨h0, hq, ?_⟩
      simp only [anchor_B, zoneSpan_B, RoundRange.mem_def]
      omega
    · refine (finalizes_B h hf hR0 hB h0 hq hin).mpr ?_
      by_cases ho : own = true
      · exact .inl ⟨ho, by omega, by omega⟩
      · have hi : incoming = true := hany.resolve_left ho
        refine .inr ⟨hi, ?_, by omega⟩
        by_contra hn
        exact hcaseA ⟨fun ht => absurd ht ho, fun _ => ⟨by omega, by omega⟩⟩
    · intro _ p hp hcommit
      rcases committer_cases hp hcommit hkd (by omega) with ⟨-, hn⟩ | ⟨rfl, -⟩
      · omega
      · exact .inl ⟨rfl, rfl⟩
    · intro ht p hp hcommit
      rcases committer_cases (k := k) hp hcommit (by omega) (by omega) with ⟨rfl, hn⟩ | ⟨rfl, -⟩
      · exact .inr (sendsRound_forward h hf (hspan ht) h0 hq (by omega))
      · exact .inl ⟨rfl, rfl⟩
  · -- What is left is the first round of the period, touched from the round before: `B[k]` imports
    -- it, and `A[k]` sends it back.
    have hi : incoming = true := by
      by_contra hn
      exact hcaseA ⟨fun _ => by omega, fun ht => absurd ht hn⟩
    have hd : q - k * params.period = 0 := by
      by_contra hn
      exact hcaseA ⟨fun _ => by omega, fun _ => ⟨by omega, by omega⟩⟩
    have hpos := hin hi
    have hB : k ∈ (parallelRequestB params).instances R :=
      (mem_instances_B h hf).mpr ⟨by omega, by omega⟩
    refine settled (windowB t params prior id R k)
      (mem_parallelSchedule.mpr (.inr ⟨k, hB, rfl⟩)) (.inr ?_) ?_ ?_ ?_
    · refine (mem_imports_iff (l := ⟨id ++ ".B", parallelRequestB params⟩) hvB hR0 hB).mpr
        ⟨h0, hq, ?_⟩
      have hzone : importZone t (parallelRequestB params) =
          ⟨params.gap, params.gap + t.maxSpan⟩ := rfl
      simp only [anchor_B, hzone, hspan hi, RoundRange.mem_def]
      omega
    · exact (finalizes_B h hf hR0 hB h0 hq hin).mpr (.inr ⟨hi, by omega, by omega⟩)
    · intro _ p hp hcommit
      rcases committer_cases hp hcommit hkd (by omega) with ⟨rfl, -⟩ | ⟨-, hn⟩
      · exact .inr (sendsRound_backward h hf (hspan hi) h0 hq hd)
      · omega
    · intro _ p hp hcommit
      rcases committer_cases (k := k - 1) hp hcommit (by omega) (by omega) with ⟨-, hn⟩ | ⟨rfl, -⟩
      · omega
      · rw [sub_add_cancel]
        exact .inl ⟨rfl, rfl⟩

theorem committed_once (h : params.Checked prior) (hf : params.Fits) {q : Int} (h0 : 0 ≤ q)
    (hq : q < R) : ∃ w ∈ (parallelSchedule t params prior id R).windows, q ∈ w.commit ∧
      ∀ w' ∈ (parallelSchedule t params prior id R).windows, q ∈ w'.commit → w' = w := by
  have hP : params.period = params.commitRounds + params.gap := rfl
  have h1 := h.commit_pos
  have h3 := h.gap_pos
  obtain ⟨k, hk0, hkd⟩ := exists_period (q := q) h h0
  have hsucc : (k + 1) * params.period = k * params.period + params.period := by ring
  by_cases hc : q - k * params.period < params.commitRounds
  · refine ⟨windowA t params prior id R k, mem_parallelSchedule.mpr (.inl ⟨k, ?_, rfl⟩), ?_, ?_⟩
    · exact (mem_instances_A h hf).mpr ⟨by omega, by omega⟩
    · exact mem_commit_A.mpr ⟨h0, hq, hkd.1, hc⟩
    · intro w' hw' hcommit
      rcases committer_cases hw' hcommit hkd (by omega) with ⟨rfl, -⟩ | ⟨-, hn⟩
      · rfl
      · omega
  · refine ⟨windowB t params prior id R (k + 1),
      mem_parallelSchedule.mpr (.inr ⟨k + 1, ?_, rfl⟩), ?_, ?_⟩
    · exact (mem_instances_B h hf).mpr ⟨by omega, by omega⟩
    · exact mem_commit_B.mpr ⟨h0, hq, by omega, by omega⟩
    · intro w' hw' hcommit
      rcases committer_cases hw' hcommit hkd (by omega) with ⟨-, hn⟩ | ⟨rfl, -⟩
      · omega
      · rfl

/-! ## Deliveries -/

theorem inputs_A (k : Int) : (windowA t params prior id R k).inputs = [] := by
  simp [windowA, scheduledOf, parallelEdges]

theorem inputs_B (k : Int) : (windowB t params prior id R k).inputs =
    (parallelEdges id).map (dependencyAt
      (parallelLayers id (parallelRequestA params prior) (parallelRequestB params)) R k) := by
  simp [windowB, scheduledOf, parallelEdges]

theorem rounds_B (h : params.Checked prior) (hf : params.Fits) (hR0 : 0 < R) {k : Int}
    (hk : k ∈ (parallelRequestB params).instances R) :
    (windowB t params prior id R k).rounds =
      ⟨max 0 (k * params.period - params.gap), min R (k * params.period)⟩ := by
  have hr := rounds_eq t (parallelLayers id (parallelRequestA params prior) (parallelRequestB params))
    (parallelEdges id) (l := ⟨id ++ ".B", parallelRequestB params⟩)
    (checkRequest_valid (checkRequest_B h hf)) hR0 hk
  rw [windowB, hr]
  simp only [anchor_B, zoneSpan_B, clipRounds, add_zero, sub_add_cancel]

/-! ## The two inputs of layer B -/

theorem delivers_forward (h : params.Checked prior) (hf : params.Fits) (hR0 : 0 < R)
    (hspan : t.maxSpan ≤ 1) {k : Int} (hk : k ∈ (parallelRequestB params).instances R) :
    Delivers (placedSend t (parallelRequestA params prior) (k + -1) R { id := "forward" })
      (windowB t params prior id R k) := by
  have hP : params.period = params.commitRounds + params.gap := rfl
  have h3 := h.gap_pos
  have hpred : (k + -1) * params.period = k * params.period - params.period := by ring
  refine ⟨fun _ r hr => ?_, fun hm => by simp [placedSend, SendRequest.sendMode] at hm⟩
  simp only [placedSend, placedSendRounds, relativeSendRounds_forward h, anchor_A, List.map_cons,
    List.map_nil, List.mem_filter, List.mem_singleton] at hr
  obtain ⟨rfl, -⟩ := hr
  rw [rounds_B h hf hR0 hk]
  simp only [clipRounds]
  omega

/-- What `A[k]` sends back is what `B[k]` imports. -/
theorem delivers_backward (h : params.Checked prior) (hf : params.Fits) (hR0 : 0 < R)
    {k : Int} (hk : k ∈ (parallelRequestB params).instances R)
    (hA : k ∈ (parallelRequestA params prior).instances R) :
    Delivers (placedSend t (parallelRequestA params prior) k R { id := "backward" })
      (windowB t params prior id R k) := by
  have hlt := ((mem_instances_A h hf).mp hA).2
  refine ⟨fun hm => by simp [placedSend, SendRequest.sendMode] at hm, fun _ => ?_⟩
  have himports : (windowB t params prior id R k).output.imports =
      clipRounds ⟨0, t.maxSpan⟩ (k * params.period) R := by
    have hstop : (windowB t params prior id R k).rounds.stop = k * params.period := by
      rw [rounds_B h hf hR0 hk]
      exact min_eq_right hlt.le
    have hrel : relativeImports t (parallelRequestB params) =
        ⟨params.gap, params.gap + t.maxSpan⟩ := rfl
    show (placedOutput t (parallelRequestB params) ((parallelRequestB params).anchor k)
      (windowB t params prior id R k).rounds.stop R).imports = _
    rw [hstop]
    show (if _ ∧ _ then _ else _) = _
    rw [if_pos ⟨hlt, rfl⟩, hrel, anchor_B]
    simp only [clipRounds, add_zero, sub_add_cancel]
    congr 2
    omega
  rw [himports]
  simp only [placedSend, placedSendRounds, relativeSendRounds_backward, anchor_A, List.map_cons,
    List.map_nil, List.filter_cons, List.filter_nil]
  split
  · simp
  · next he =>
    have : RoundRange.Empty (clipRounds ⟨0, t.maxSpan⟩ (k * params.period) R) := by simpa using he
    have hnil : (clipRounds ⟨0, t.maxSpan⟩ (k * params.period) R).toList = [] := by
      rw [RoundRange.toList, List.map_eq_nil_iff, List.range_eq_nil]
      exact Int.toNat_of_nonpos (by simpa [RoundRange.Empty] using this)
    rw [hnil]
    rfl

/-- Every input of a window that is there comes from a window of the shot. -/
theorem input_delivers (h : params.Checked prior) (hf : params.Fits) (hR0 : 0 < R)
    (hspan : t.maxSpan ≤ 1) {k : Int} (hk : k ∈ (parallelRequestB params).instances R)
    {e : TaskGraphEdge} (he : e ∈ parallelEdges id)
    (hp : (dependencyAt (parallelLayers id (parallelRequestA params prior)
      (parallelRequestB params)) R k e).present = true) :
    ∃ p, (parallelSchedule t params prior id R).windowAt e.fromNode (k + e.indexOffset) = .ok p ∧
      Delivers (sendOf p (dependencyAt (parallelLayers id (parallelRequestA params prior)
        (parallelRequestB params)) R k e)) (windowB t params prior id R k) := by
  have hg := parallelLayers_graph id h hf
  simp only [parallelEdges, List.mem_cons, List.not_mem_nil, or_false] at he
  rcases he with rfl | rfl
  · have hi := (source_forward.present_iff hg).mp hp
    refine ⟨_, source_forward.windowAt_eq hg hi, ?_⟩
    rw [source_forward.sendOf_eq hg _ rfl]
    exact delivers_forward h hf hR0 hspan hk
  · have hi := (source_backward.present_iff hg).mp hp
    refine ⟨_, source_backward.windowAt_eq hg hi, ?_⟩
    rw [source_backward.sendOf_eq hg _ rfl]
    simp only [add_zero] at hi ⊢
    exact delivers_backward h hf hR0 hk hi

theorem parallel_deliveries (h : params.Checked prior) (hf : params.Fits) (hR0 : 0 < R)
    (hspan : t.maxSpan ≤ 1) : checkDeliveries (parallelSchedule t params prior id R) = .ok () := by
  refine checkDeliveries_eq_ok.mpr fun c hc => ?_
  rcases mem_parallelSchedule.mp hc with ⟨k, hk, rfl⟩ | ⟨k, hk, rfl⟩
  · rw [inputs_A]
    simp
  · rw [inputs_B]
    constructor
    · intro d hd hp
      obtain ⟨e, he, rfl⟩ := List.mem_map.mp hd
      exact input_delivers h hf hR0 hspan hk he hp
    · refine List.Pairwise.filter _ (List.pairwise_map.mpr ?_)
      simp [parallelEdges, SameSend, dependencyAt]

theorem parallel_imported (h : params.Checked prior) (hf : params.Fits) (hR0 : 0 < R)
    (hspan : t.maxSpan ≤ 1) : checkImported (parallelSchedule t params prior id R) = .ok () := by
  have hg := parallelLayers_graph id h hf
  refine (checkImported_eq_ok fun c hc d hd hp => ?_).mpr fun c hc hne => ?_
  · obtain ⟨p, hw, -⟩ := (checkDeliveries_eq_ok.mp
      (parallel_deliveries h hf hR0 hspan) c hc).1 d hd hp
    exact ⟨p, hw⟩
  rcases mem_parallelSchedule.mp hc with ⟨k, hk, rfl⟩ | ⟨k, hk, rfl⟩
  · -- An open output imports nothing.
    refine absurd ?_ hne
    have himp : (windowA t params prior id R k).output.imports = ⟨0, 0⟩ :=
      if_neg (by simp [parallelRequestA])
    rw [himp]
    exact le_refl _
  · have hA : k ∈ (parallelRequestA params prior).instances R := by
      have hB := (mem_instances_B h hf).mp hk
      refine (mem_instances_A h hf).mpr ⟨by omega, ?_⟩
      by_contra hn
      refine hne ?_
      have hstop : (windowB t params prior id R k).rounds.stop = R := by
        rw [rounds_B h hf hR0 hk]
        exact min_eq_left (not_lt.mp hn)
      have himp : (windowB t params prior id R k).output.imports = ⟨0, 0⟩ := by
        refine if_neg fun hc => ?_
        have hlt : (windowB t params prior id R k).rounds.stop < R := hc.1
        omega
      rw [himp]
      exact le_refl _
    rw [inputs_B]
    -- layer B is sent the corrections forward and the residual backward
    have hforward : ¬ IsResidual (parallelSchedule t params prior id R)
        (dependencyAt (parallelLayers id (parallelRequestA params prior) (parallelRequestB params))
          R k ⟨id ++ ".A", "forward", id ++ ".B", "receive_0", -1⟩) := by
      rintro ⟨hp, p, hw, hm⟩
      have hi := (source_forward.present_iff hg).mp hp
      have hw' := source_forward.windowAt_eq (t := t) hg hi
      rw [show (dependencyAt _ R k _).fromNode = id ++ ".A" from rfl] at hw
      rw [Except.ok.inj (hw.symm.trans hw'), source_forward.sendOf_eq hg _ rfl] at hm
      simp [placedSend, SendRequest.sendMode] at hm
    have hbackward : IsResidual (parallelSchedule t params prior id R)
        (dependencyAt (parallelLayers id (parallelRequestA params prior) (parallelRequestB params))
          R k ⟨id ++ ".A", "backward", id ++ ".B", "receive_1", 0⟩) := by
      have hA' : k + 0 ∈ (parallelRequestA params prior).instances R := by simpa using hA
      refine ⟨(source_backward.present_iff hg).mpr hA', _, source_backward.windowAt_eq hg hA', ?_⟩
      rw [source_backward.sendOf_eq hg _ rfl]
      simp [placedSend, SendRequest.sendMode]
    simp [parallelEdges, hforward, hbackward]

/-! ## Row numbers -/

/-- No row number of an `A` window wraps around: where a sent round starts at or past the window's
first row, so does the round after it. Windows start `buffer_rounds` before a multiple `a` of the
period. -/
def RowsAscend (t : TemplateData) (params : ParallelWindowParams) (R : Nat) : Prop :=
  t.maxSpan = 1 → ∀ a q : Nat, params.commitRounds + params.gap ∣ a →
    q = a ∨ q = a + params.commitRounds → q < R →
    t.rowOffset (a - params.bufferRounds) R ≤ t.rowOffset q R →
    t.rowOffset (a - params.bufferRounds) R ≤ t.rowOffset (q + 1) R

/-- A send of one round past `x`, clipped, as the only range it may have. -/
theorem fits_range (hspan : t.maxSpan ≤ 1) {x a s : Int} :
    (∀ r ∈ ([(⟨x, x + t.maxSpan⟩ : RoundRange)].map fun r => clipRounds r a R).filter
        fun r => ¬ r.Empty, ¬ RowsWrap t s R r) ↔
      (t.maxSpan = 1 → 0 ≤ a + x → a + x < R → ¬ RowsWrap t s R ⟨a + x, a + x + 1⟩) := by
  have hclip : t.maxSpan = 1 → 0 ≤ a + x → a + x < R →
      clipRounds ⟨x, x + t.maxSpan⟩ a R = ⟨a + x, a + x + 1⟩ := by
    intro h1 h2 h3
    ext
    · simp only [clipRounds]
      omega
    · simp only [clipRounds]
      omega
  simp only [List.map_cons, List.map_nil, List.mem_filter, List.mem_singleton, and_imp,
    decide_eq_true_eq, forall_eq]
  constructor
  · intro h h1 h2 h3
    rw [← hclip h1 h2 h3]
    refine h (not_le.mpr ?_)
    simp only [clipRounds]
    omega
  · intro h hne
    have hlt : max 0 (a + x) < min (R : Int) (a + (x + t.maxSpan)) := not_le.mp hne
    rw [hclip (by omega) (by omega) (by omega)]
    exact h (by omega) (by omega) (by omega)

theorem rowsWrap_iff {a b q : Nat} :
    RowsWrap t (max 0 ((a : Int) - b)) R ⟨q, q + 1⟩ ↔
      t.rowOffset (a - b) R ≤ t.rowOffset q R ∧ t.rowOffset (q + 1) R < t.rowOffset (a - b) R := by
  have h1 : (max 0 ((a : Int) - b)).toNat = a - b := by omega
  have h2 : ((q : Int) + 1).toNat = q + 1 := by omega
  simp only [RowsWrap, rowFrom, h1, h2, Int.toNat_natCast]
  omega

/-- The windows of the pattern are placed exactly when no row number wraps around. -/
theorem sendsFit_iff (h : params.Checked prior) (hf : params.Fits) (hR0 : 0 < R)
    (hspan : t.maxSpan ≤ 1) :
    (∀ k ∈ (parallelRequestA params prior).instances R,
      SendsFit t (parallelRequestA params prior) k R) ↔ RowsAscend t params R := by
  have hv := checkRequest_valid ((checkRequest_A_iff h).mpr hf)
  have hP : params.period = params.commitRounds + params.gap := rfl
  have h1 := h.commit_pos
  have h3 := h.gap_pos
  -- window `k` of layer A sends two rounds, each placed from its first buffered round
  have hsends : ∀ k, k ∈ (parallelRequestA params prior).instances R →
      (SendsFit t (parallelRequestA params prior) k R ↔ ∀ x, x = (params.commitRounds : Int) ∨ x = 0 →
        t.maxSpan = 1 → 0 ≤ k * params.period + x → k * params.period + x < R →
          ¬ RowsWrap t (max 0 (k * params.period - params.bufferRounds)) R
            ⟨k * params.period + x, k * params.period + x + 1⟩) := by
    intro k hk
    have hs : (placedRounds (parallelRequestA params prior) (k * params.period) R).begin =
        max 0 (k * params.period - params.bufferRounds) := by
      rw [← anchor_A, placedRounds_eq hv ((mem_instances_iff_clip hv.toAnchored hR0).mp hk),
        zoneSpan_A h]
      rfl
    have hb := fits_range (t := t) (R := R) (x := 0) (a := k * params.period)
      (s := max 0 (k * params.period - params.bufferRounds)) hspan
    rw [zero_add] at hb
    have hsend : (parallelRequestA params prior).sends =
        [{ id := "forward" }, { id := "backward" }] := rfl
    simp only [SendsFit, hsend, hs, List.mem_cons, List.not_mem_nil, or_false, forall_eq_or_imp,
      forall_eq, placedSendRounds, relativeSendRounds_forward h, relativeSendRounds_backward,
      anchor_A, fits_range hspan, hb]
  constructor
  -- the rows that ascend are those of the window that sends the round
  · rintro hall hone a q ⟨k, rfl⟩ hq hqR hle
    have hcast : (((params.commitRounds + params.gap) * k : Nat) : Int) = (k : Int) * params.period := by
      push_cast
      rw [hP]
      ring
    have hk : (k : Int) ∈ (parallelRequestA params prior).instances R :=
      (mem_instances_A h hf).mpr ⟨by omega, by omega⟩
    have hx := (hsends k hk).mp (hall k hk) (q - k * params.period) (by omega) hone (by omega)
      (by omega)
    rw [add_sub_cancel, ← hcast, rowsWrap_iff] at hx
    by_contra hn
    exact hx ⟨hle, not_le.mp hn⟩
  · intro hasc k hk
    refine (hsends k hk).mpr fun x hx hone hx0 hxR hwrap => ?_
    -- a window that begins before the shot is none of the pattern's
    have hk0 : 0 ≤ k := by
      have hpos := ((mem_instances_A h hf).mp hk).1
      by_contra hn
      have : (k + 1) * params.period ≤ 0 * params.period :=
        Int.mul_le_mul_of_nonneg_right (by omega) (by omega)
      have hsucc : (k + 1) * params.period = k * params.period + params.period := by ring
      omega
    obtain ⟨n, rfl⟩ := Int.eq_ofNat_of_zero_le hk0
    have hcast : (((params.commitRounds + params.gap) * n : Nat) : Int) = (n : Int) * params.period := by
      push_cast
      rw [hP]
      ring
    obtain ⟨q, hq⟩ := Int.eq_ofNat_of_zero_le hx0
    rw [hq, ← hcast, rowsWrap_iff] at hwrap
    have := hasc hone _ q (Dvd.intro n rfl) (by omega) (by omega) hwrap.1
    omega

end

theorem rowsAscend_of_fits (t : ExperimentTemplate) (params : ParallelWindowParams) {R : Nat}
    (hR : t.Admits R) (hfit : t.prefixRounds + t.suffixRounds ≤ R) :
    RowsAscend t.toTemplateData params R := by
  intro _ a q _ _ hq hle
  exact hle.trans (TemplateData.sumBefore_mono PhaseChunks.rows hfit (t.eq_prefixRounds hR)
    (Nat.le_succ q) hq)

/-! ## The checks -/

def smallParams : ParallelWindowParams where
  commitRounds := 2
  bufferRounds := 1
  gapRounds := some 1

example : checkRequest (parallelRequestB smallParams) = .ok () := by decide +kernel

/-- Five phases in a chain and a sixth that repeats next to it. -/
def asideSpec : DemChunksSpec where
  phases := [⟨⟨10⟩, memoryPhase⟩, ⟨⟨11⟩, memoryPhase⟩, ⟨⟨12⟩, memoryPhase⟩, ⟨⟨13⟩, memoryPhase⟩,
    ⟨⟨14⟩, memoryPhase⟩, ⟨⟨15⟩, memoryPhase⟩]
  connections := [⟨⟨10⟩, ⟨11⟩⟩, ⟨⟨11⟩, ⟨12⟩⟩, ⟨⟨12⟩, ⟨13⟩⟩, ⟨⟨13⟩, ⟨14⟩⟩, ⟨⟨15⟩, ⟨15⟩⟩]
  seam := ⟨⟨1⟩, ⟨0⟩⟩

def asideTemplate : ExperimentTemplate where
  toTemplateData := (buildTemplate asideSpec).toOption.get (by decide +kernel)
  built := by decide +kernel

def asideParams : ParallelWindowParams where
  commitRounds := 4
  bufferRounds := 1
  gapRounds := some 1

end CudaqQec
