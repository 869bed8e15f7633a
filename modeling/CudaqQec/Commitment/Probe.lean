import CudaqQec.Commitment.Periodic

/-!
# Probe shots

`validate_commitment` checks the shots shorter than `commitment_probe_rounds` and takes that for all
of them: the longest layer's variant probe, and as many periods more as the farthest edge reaches.

* `probes_suffice`: the probes do speak for every shot, as long as no window and the producers that
  its inputs come from are spread over more rounds than a probe has.
* `probes_miss_offset`: layers far apart in their offsets are spread further than that.
-/

namespace CudaqQec

open Checked WindowRequest

/-! ## The probe shots -/

def edgeReach (edges : List TaskGraphEdge) : Int :=
  edges.foldl (fun reach e => max reach |e.indexOffset|) 1

/-- The longest variant probe of the layers, all of which have the first one's period. -/
@[grind =] def longestProbe (t : TemplateData) (first : WindowLayer) :
    List WindowLayer → Nat → Except Error Nat
  | [], stop => .ok stop
  | layer :: layers, stop => do
    throwIf (layer.request.period ≠ first.request.period)
      (.invalidArgument ("commitment_probe_rounds: layers " ++ first.node ++ " and " ++ layer.node ++
        " have periods " ++ toString first.request.period ++ " and " ++
        toString layer.request.period ++ "; every layer needs the same period"))
    let probe ← variantProbeRounds t layer.request
    longestProbe t first layers (max stop probe)

def probeRounds (t : TemplateData) (edges : List TaskGraphEdge) :
    List WindowLayer → Except Error Nat
  | [] => .ok (t.minRounds + 1)
  | first :: layers =>
    if t.repeats then do
      let stop ← longestProbe t first (first :: layers) (t.minRounds + 1)
      return stop + (edgeReach edges * first.request.period).toNat
    else .ok (t.minRounds + 1)

def commitmentProbeRounds (t : TemplateData) (layers : List WindowLayer)
    (edges : List TaskGraphEdge) : Except Error Nat := do
  checkIndexOffsets edges "commitment_probe_rounds"
  probeRounds t edges layers

def PassesAt (t : TemplateData) (layers : List WindowLayer) (edges : List TaskGraphEdge) (R : Nat) :
    Prop := ∃ s, scheduleWindows t layers edges R = .ok s ∧ Passes t s

/-! ## How long they are -/

theorem one_le_edgeReach (edges : List TaskGraphEdge) : 1 ≤ edgeReach edges := by
  have h : ∀ (es : List TaskGraphEdge) (x : Int),
      x ≤ es.foldl (fun reach e => max reach |e.indexOffset|) x := by
    intro es
    induction es with
    | nil => exact fun x => le_refl x
    | cons e es ih => exact fun x => (le_max_left _ _).trans (ih _)
  exact h edges 1

theorem longestProbe_eq_ok {t : TemplateData} {first : WindowLayer} {layers : List WindowLayer}
    {stop E : Nat} (h : longestProbe t first layers stop = .ok E) :
    stop ≤ E ∧ ∀ l ∈ layers, l.request.period = first.request.period ∧
      ∃ probe, variantProbeRounds t l.request = .ok probe ∧ probe ≤ E := by
  induction layers generalizing stop with
  | nil =>
    cases h
    exact ⟨le_refl _, by simp⟩
  | cons l layers ih =>
    simp only [longestProbe, bind_eq_ok, throwIf_eq_ok, ne_eq, not_not] at h
    obtain ⟨_, hper, probe, hprobe, hrest⟩ := h
    obtain ⟨hle, hall⟩ := ih hrest
    have hl := le_max_left stop probe
    have hr := le_max_right stop probe
    refine ⟨by omega, ?_⟩
    intro x hx
    rcases List.mem_cons.mp hx with rfl | hx
    · exact ⟨hper, probe, hprobe, by omega⟩
    · exact hall x hx

/-- The probes run past prefix and suffix by more than two periods. -/
theorem probe_bound (t : ExperimentTemplate) {layers : List WindowLayer}
    {edges : List TaskGraphEdge} {E : Nat}
    (h : commitmentProbeRounds t.toTemplateData layers edges = .ok E) (hrep : t.repeats = true)
    (hne : layers ≠ []) :
    ∃ P : Int, 1 ≤ P ∧ (∀ l ∈ layers, l.request.period = P) ∧
      t.prefixRounds + endRounds t.toTemplateData + 2 * P + 3 ≤ E := by
  simp only [commitmentProbeRounds, bind_eq_ok] at h
  obtain ⟨_, -, h⟩ := h
  cases layers with
  | nil => exact absurd rfl hne
  | cons first layers =>
    simp only [probeRounds, hrep, if_true, bind_eq_ok] at h
    obtain ⟨stop, hstop, hE⟩ := h
    obtain ⟨-, hall⟩ := longestProbe_eq_ok hstop
    obtain ⟨-, probe, hprobe, hle⟩ := hall first (by simp)
    simp only [variantProbeRounds, hrep, if_true, bind_eq_ok, pure, Except.pure,
      Except.ok.injEq] at hprobe
    obtain ⟨_, hreq, hprobe⟩ := hprobe
    have ha := (checkRequest_valid hreq).toAnchored
    have hp := ha.period_pos
    refine ⟨first.request.period, hp, fun l hl => (hall l hl).1, ?_⟩
    have hreach := modelReach_bounds (t := t.toTemplateData) ha
    have hbulk := (firstBulkIndex_le_iff (t := t.toTemplateData) ha
      (k := firstBulkIndex t.toTemplateData first.request)).mp (le_refl _)
    have hstep := anchor_add_le hp
      (show firstBulkIndex t.toTemplateData first.request <
        firstBulkIndex t.toTemplateData first.request + 1 by omega)
    have hend : probeEnd t.toTemplateData first.request =
      first.request.anchor (firstBulkIndex t.toTemplateData first.request + 1) +
        (modelReach t.toTemplateData first.request).stop + endRounds t.toTemplateData + 1 := rfl
    have hmul : first.request.period ≤ edgeReach edges * first.request.period :=
      le_mul_of_one_le_left (by omega) (one_le_edgeReach edges)
    have hE' : E = stop + (edgeReach edges * first.request.period).toNat := (Except.ok.inj hE).symm
    omega

/-! ## The rounds of long shots -/

section
variable {t : TemplateData}

/-- Rounds past the prefix that lie equally far from the shot's end have one chunk. -/
theorem chunk_eq_of_end {q q' R R' : Nat} (hq : t.prefixRounds ≤ q) (hq' : t.prefixRounds ≤ q')
    (hR : t.suffixRounds ≤ R) (hR' : t.suffixRounds ≤ R') (hend : R + q' = R' + q) :
    t.chunk q' R' = t.chunk q R := by
  have hphase : t.phase q' R' = t.phase q R := by
    unfold TemplateData.phase
    rw [if_neg (not_lt.mpr hq'), if_neg (not_lt.mpr hq)]
    by_cases hb : q < R - t.suffixRounds
    · have hb' : q' < R' - t.suffixRounds := by omega
      rw [if_pos hb, if_pos hb']
    · have hb' : ¬ q' < R' - t.suffixRounds := by omega
      rw [if_neg hb, if_neg hb']
      congr 1
      omega
  unfold TemplateData.chunk
  rw [hphase]
  by_cases hl : q + 1 < R
  · have hl' : q' + 1 < R' := by omega
    rw [if_pos hl, if_pos hl']
  · have hl' : ¬ q' + 1 < R' := by omega
    rw [if_neg hl, if_neg hl']

theorem chunk_eq_of_prefix {q R R' : Nat} (hq : q < t.prefixRounds) (hR : q + 1 < R)
    (hR' : q + 1 < R') : t.chunk q R' = t.chunk q R := by
  simp only [TemplateData.chunk, TemplateData.phase, hq, hR, hR', if_true]

theorem chunk_eq_of_bulk {q q' R R' : Nat} (hq : t.prefixRounds ≤ q) (hq' : t.prefixRounds ≤ q')
    (hb : q < R - t.suffixRounds) (hb' : q' < R' - t.suffixRounds) (hl : q + 1 < R)
    (hl' : q' + 1 < R') : t.chunk q' R' = t.chunk q R := by
  have h1 : ¬ q < t.prefixRounds := by omega
  have h2 : ¬ q' < t.prefixRounds := by omega
  simp only [TemplateData.chunk, TemplateData.phase, h1, h2, hb, hb', hl, hl', if_true, if_false]

/-- Two rounds that `check_commits` and `check_rows` see alike: the faults that touch their rows are
the same. -/
def SameTouch (t : TemplateData) (R q R' q' : Nat) : Prop :=
  touchAt t R' q' = touchAt t R q ∧ ∀ i, incomingAt t R' q' i = incomingAt t R q i

theorem sameTouch_of_chunk {q q' R R' : Nat} (h0 : 0 < q' ↔ 0 < q)
    (h : t.chunk q' R' = t.chunk q R) (h1 : 0 < q → t.chunk (q' - 1) R' = t.chunk (q - 1) R) :
    SameTouch t R q R' q' := by
  refine ⟨by rw [touchAt, touchAt, h], fun i => ?_⟩
  unfold incomingAt
  by_cases hq : q = 0
  · rw [if_pos hq, if_pos (by omega)]
  · rw [if_neg hq, if_neg (by omega), touchAt, touchAt, h1 (by omega)]

end

/-- Every round of a shot past the probes has its like in a probe, a whole number of periods away. -/
theorem exists_probe_round (t : ExperimentTemplate) {P : Int} {E R q : Nat} (hP : 1 ≤ P)
    (hE : t.prefixRounds + endRounds t.toTemplateData + 2 * P + 3 ≤ E) (hR : E ≤ R) (hq : q < R) :
    ∃ R' q' : Nat, t.minRounds ≤ R' ∧ R' < E ∧ q' < R' ∧ (∃ n : Int, (q : Int) = q' + n * P) ∧
      (0 < q' ↔ 0 < q) ∧ SameTouch t.toTemplateData R q R' q' := by
  have hmin := t.shape.min_le
  have hsuffix : (t.suffixRounds : Int) ≤ endRounds t.toTemplateData := le_max_left _ _
  have hone : 1 ≤ endRounds t.toTemplateData := le_max_right _ _
  by_cases hpre : q ≤ t.prefixRounds
  · -- The start of the shot stays where it is.
    refine ⟨E - 1, q, by omega, by omega, by omega, ⟨0, by simp⟩, Iff.rfl, ?_⟩
    refine sameTouch_of_chunk Iff.rfl ?_ fun h0 => ?_
    · by_cases hlt : q < t.prefixRounds
      · exact chunk_eq_of_prefix hlt (by omega) (by omega)
      · exact chunk_eq_of_bulk (by omega) (by omega) (by omega) (by omega) (by omega) (by omega)
    · exact chunk_eq_of_prefix (by omega) (by omega) (by omega)
  by_cases htail : (R : Int) - endRounds t.toTemplateData ≤ q
  · -- The end moves with the end of a probe of the last period.
    have h1 := Int.emod_add_mul_ediv ((R : Int) - E) P
    have h2 := Int.emod_nonneg ((R : Int) - E) (by omega : P ≠ 0)
    have h3 := Int.emod_lt_of_pos ((R : Int) - E) (by omega : 0 < P)
    have h4 : (((R : Int) - E) / P + 1) * P = P * (((R : Int) - E) / P) + P := by ring
    obtain ⟨R', hR'⟩ := Int.eq_ofNat_of_zero_le
      (show 0 ≤ R - (((R : Int) - E) / P + 1) * P by omega)
    obtain ⟨q', hq'⟩ := Int.eq_ofNat_of_zero_le
      (show 0 ≤ q - (((R : Int) - E) / P + 1) * P by omega)
    refine ⟨R', q', by omega, by omega, by omega, ⟨((R : Int) - E) / P + 1, by omega⟩, by omega, ?_⟩
    refine sameTouch_of_chunk (by omega) ?_ fun h0 => ?_
    · exact chunk_eq_of_end (by omega) (by omega) (by omega) (by omega) (by omega)
    · exact chunk_eq_of_end (by omega) (by omega) (by omega) (by omega) (by omega)
  · -- In between all rounds are bulk, and the first period after the prefix has one of each kind.
    have h1 := Int.emod_add_mul_ediv ((q : Int) - t.prefixRounds - 1) P
    have h2 := Int.emod_nonneg ((q : Int) - t.prefixRounds - 1) (by omega : P ≠ 0)
    have h3 := Int.emod_lt_of_pos ((q : Int) - t.prefixRounds - 1) (by omega : 0 < P)
    have h4 : ((q : Int) - t.prefixRounds - 1) / P * P =
      P * (((q : Int) - t.prefixRounds - 1) / P) := by ring
    obtain ⟨q', hq'⟩ := Int.eq_ofNat_of_zero_le
      (show 0 ≤ q - ((q : Int) - t.prefixRounds - 1) / P * P by omega)
    refine ⟨E - 1, q', by omega, by omega, by omega,
      ⟨((q : Int) - t.prefixRounds - 1) / P, by omega⟩, by omega, ?_⟩
    refine sameTouch_of_chunk (by omega) ?_ fun h0 => ?_
    · exact chunk_eq_of_bulk (by omega) (by omega) (by omega) (by omega) (by omega) (by omega)
    · exact chunk_eq_of_bulk (by omega) (by omega) (by omega) (by omega) (by omega) (by omega)

/-! ## How far windows and their producers are spread -/

section
variable (t : TemplateData) (layers : List WindowLayer) (edges : List TaskGraphEdge)

def producerSpan (c : WindowLayer) (e : TaskGraphEdge) : RoundRange :=
  match findLayer layers e.fromNode with
  | none => c.request.zoneSpan
  | some p => p.request.zoneSpan.shift
      (p.request.offset + e.indexOffset * p.request.period - c.request.offset)

/-- The rounds a window, its imports and the producers behind some of its edges take together,
relative to its anchor. -/
def spreadOf (c : WindowLayer) (es : List TaskGraphEdge) : RoundRange :=
  (importZone t c.request :: es.map (producerSpan layers c)).foldl RoundRange.hull c.request.zoneSpan

def edgeMode (e : TaskGraphEdge) : SendMode :=
  (((findLayer layers e.fromNode).bind fun p =>
    p.request.sends.find? fun send => send.id = e.fromOutput).map SendRequest.sendMode).getD .delta

def residualEdges (c : WindowLayer) : List TaskGraphEdge :=
  edges.filter fun e => e.toNode = c.node ∧ edgeMode layers e = .residual

/-- No window is spread, together with one producer or with all that send it residuals, over more
rounds than a probe has: `E` rounds, less a period. Without layers the only probe is the shortest shot,
which has to show every chunk. -/
def WithinProbe (E : Nat) : Prop :=
  (layers = [] → t.prefixRounds + 1 + max t.suffixRounds 1 ≤ t.minRounds) ∧ ∀ c ∈ layers,
    (spreadOf t layers c (residualEdges layers edges c)).stop -
      (spreadOf t layers c (residualEdges layers edges c)).begin + c.request.period ≤ E ∧
    ∀ e ∈ edges, e.toNode = c.node →
      (spreadOf t layers c [e]).stop - (spreadOf t layers c [e]).begin + c.request.period ≤ E

instance (E : Nat) : Decidable (WithinProbe t layers edges E) := inferInstanceAs (Decidable (_ ∧ _))

end

section
variable {t : TemplateData} {layers : List WindowLayer} {edges : List TaskGraphEdge}

variable (t layers) in
theorem spreadOf_window (c : WindowLayer) (es : List TaskGraphEdge) :
    (spreadOf t layers c es).begin ≤ c.request.zoneSpan.begin ∧
      c.request.zoneSpan.stop ≤ (spreadOf t layers c es).stop :=
  (RoundRange.foldl_hull _ _).1 _ (by simp)

variable (t layers) in
theorem spreadOf_imports (c : WindowLayer) (es : List TaskGraphEdge) :
    (spreadOf t layers c es).begin ≤ (importZone t c.request).begin ∧
      (importZone t c.request).stop ≤ (spreadOf t layers c es).stop :=
  (RoundRange.foldl_hull _ _).1 _ (by simp)

/-- The producer behind one of the edges lies in the spread. -/
theorem spreadOf_producer (h : WindowGraph layers edges) {P : Int}
    (hP : ∀ l ∈ layers, l.request.period = P) {c p : WindowLayer} (hc : c ∈ layers)
    {es : List TaskGraphEdge} {e : TaskGraphEdge} (he : e ∈ es) {send : SendRequest}
    (hs : EdgeSource layers e p send) (k : Int) :
    c.request.anchor k + (spreadOf t layers c es).begin ≤
        p.request.anchor (k + e.indexOffset) + p.request.zoneSpan.begin ∧
      p.request.anchor (k + e.indexOffset) + p.request.zoneSpan.stop ≤
        c.request.anchor k + (spreadOf t layers c es).stop := by
  have hf : findLayer layers e.fromNode = some p :=
    (findLayer_eq_some h.nodes).mpr ⟨hs.mem, hs.node⟩
  have hmem : producerSpan layers c e ∈
      c.request.zoneSpan :: (importZone t c.request :: es.map (producerSpan layers c)) := by
    simp only [List.mem_cons, List.mem_map]
    exact .inr (.inr ⟨e, he, rfl⟩)
  have hin := (RoundRange.foldl_hull _ _).1 _ hmem
  have hspan : producerSpan layers c e = p.request.zoneSpan.shift
      (p.request.offset + e.indexOffset * p.request.period - c.request.offset) := by
    rw [producerSpan, hf]
  rw [hspan] at hin
  have hanchor : p.request.anchor (k + e.indexOffset) =
      c.request.anchor k +
        (p.request.offset + e.indexOffset * p.request.period - c.request.offset) := by
    simp only [anchor, hP p hs.mem, hP c hc]
    ring
  change (spreadOf t layers c es).begin ≤ _ + _ ∧ _ + _ ≤ (spreadOf t layers c es).stop at hin
  omega

theorem EdgeSource.edgeMode_eq (h : WindowGraph layers edges) {e : TaskGraphEdge} {p : WindowLayer}
    {send : SendRequest} (hs : EdgeSource layers e p send) :
    edgeMode layers e = send.sendMode := by
  have hf : findLayer layers e.fromNode = some p :=
    (findLayer_eq_some h.nodes).mpr ⟨hs.mem, hs.node⟩
  have hids := (checkSends_nodup (h.valid hs.mem).sends).1
  have hfind : p.request.sends.find? (fun x => x.id = e.fromOutput) = some send := by
    cases hfd : p.request.sends.find? (fun x => x.id = e.fromOutput) with
    | none =>
      have := List.find?_eq_none.mp hfd send hs.sends
      simp [hs.id] at this
    | some send' =>
      have hid : send'.id = e.fromOutput := by simpa using List.find?_some hfd
      rw [List.inj_on_of_nodup_map hids (List.mem_of_find?_eq_some hfd) hs.sends
        (hid.trans hs.id.symm)]
  simp [edgeMode, hf, hfind]

end

/-! ## A window in a probe -/

/-- A window of a long shot and its image in a probe, with the producers behind some of its edges. -/
structure ProbeView (t : TemplateData) (layers : List WindowLayer) (c : WindowLayer)
    (es : List TaskGraphEdge) (k : Int) (R R' : Nat) (n P : Int) : Prop where
  same : SameView (c.request.anchor k + (spreadOf t layers c es).begin)
    (c.request.anchor k + (spreadOf t layers c es).stop) R R' (n * P)
  period : ∀ l ∈ layers, l.request.period = P
  pos : 0 < R
  pos' : 0 < R'

namespace ProbeView

variable {t : TemplateData} {layers : List WindowLayer} {edges : List TaskGraphEdge}
  {c : WindowLayer} {es : List TaskGraphEdge} {k n P : Int} {R R' : Nat}

theorem anchor_eq (v : ProbeView t layers c es k R R' n P) {l : WindowLayer} (hl : l ∈ layers)
    (j : Int) : l.request.anchor (j + n) = l.request.anchor j + n * P := by
  rw [anchor_add, v.period l hl]

theorem instance_iff (v : ProbeView t layers c es k R R' n P) (h : WindowGraph layers edges)
    (hc : c ∈ layers) : k + n ∈ c.request.instances R' ↔ k ∈ c.request.instances R := by
  have h1 := spreadOf_window t layers c es
  have h2 := c.request.commitZone_le_zoneSpan
  exact v.same.instance_iff v.pos v.pos' (h.valid hc).toAnchored (v.anchor_eq hc k) (by omega)
    (by omega)

/-- An input of the window is there in both shots or in neither. -/
theorem present_iff (v : ProbeView t layers c es k R R' n P) (h : WindowGraph layers edges)
    (hc : c ∈ layers) {e : TaskGraphEdge} (he : e ∈ es) {p : WindowLayer} {send : SendRequest}
    (hs : EdgeSource layers e p send) :
    (dependencyAt layers R' (k + n) e).present = true ↔
      (dependencyAt layers R k e).present = true := by
  have h1 := spreadOf_producer (t := t) h v.period hc he hs k
  have h2 := p.request.commitZone_le_zoneSpan
  rw [hs.present_iff h, hs.present_iff h, show k + n + e.indexOffset = k + e.indexOffset + n by omega]
  exact v.same.instance_iff v.pos v.pos' (h.valid hs.mem).toAnchored (v.anchor_eq hs.mem _)
    (by omega) (by omega)

theorem delivers (v : ProbeView t layers c es k R R' n P) (h : WindowGraph layers edges)
    (hspan : t.maxSpan ≤ 1) (hc : c ∈ layers) (hk : k ∈ c.request.instances R)
    {e : TaskGraphEdge} (he : e ∈ es) {p : WindowLayer} {send : SendRequest}
    (hs : EdgeSource layers e p send)
    (hdel : Delivers (placedSend t p.request (k + n + e.indexOffset) R' send)
      (scheduledOf t layers edges R' c (k + n))) :
    Delivers (placedSend t p.request (k + e.indexOffset) R send)
      (scheduledOf t layers edges R c k) := by
  have h1 := spreadOf_window t layers c es
  have h2 := spreadOf_imports t layers c es
  have h3 := spreadOf_producer (t := t) h v.period hc he hs k
  have hj : p.request.anchor (k + n + e.indexOffset) =
      p.request.anchor (k + e.indexOffset) + n * P := by
    rw [show k + n + e.indexOffset = k + e.indexOffset + n by omega]
    exact v.anchor_eq hs.mem _
  refine v.same.delivers v.pos v.pos' (h.valid hc) (v.anchor_eq hc k) hj hk
    ((v.instance_iff h hc).mpr hk) (by omega) (by omega) ?_ hdel
  intro r hr
  have := relativeSendRounds_within (h.valid hs.mem) hspan hs.sends hr
  omega

theorem imports_empty_iff (v : ProbeView t layers c es k R R' n P) (h : WindowGraph layers edges)
    (hc : c ∈ layers) (hk : k ∈ c.request.instances R) :
    (scheduledOf t layers edges R' c (k + n)).output.imports.Empty ↔
      (scheduledOf t layers edges R c k).output.imports.Empty := by
  have h2 := spreadOf_imports t layers c es
  rw [← RoundRange.toList_eq_nil, ← RoundRange.toList_eq_nil,
    toList_imports (h.valid hc) v.pos' ((v.instance_iff h hc).mpr hk),
    toList_imports (h.valid hc) v.pos hk, v.anchor_eq hc, v.same.clip (by omega) (by omega),
    RoundRange.toList_shift, List.map_eq_nil_iff]

end ProbeView

/-! ## Long shots pass -/

section
variable {t : ExperimentTemplate} {layers : List WindowLayer} {edges : List TaskGraphEdge}
  {P : Int} {E R : Nat} (h : WindowGraph layers edges) (hP1 : 1 ≤ P)
  (hP : ∀ l ∈ layers, l.request.period = P)
  (hE : t.prefixRounds + endRounds t.toTemplateData + 2 * P + 3 ≤ E)
  (hw : WithinProbe t.toTemplateData layers edges E)
  (hprobe : ∀ R', t.minRounds ≤ R' → R' < E →
    Passes t.toTemplateData (scheduleOf t.toTemplateData layers edges R'))
  (hR : E ≤ R)

include hP1 hP hE hR in
theorem exists_probeView {c : WindowLayer} (es : List TaskGraphEdge) (k : Int)
    (hfit : (spreadOf t.toTemplateData layers c es).stop -
      (spreadOf t.toTemplateData layers c es).begin + P ≤ E) :
    ∃ R' n, t.minRounds ≤ R' ∧ R' < E ∧ ProbeView t.toTemplateData layers c es k R R' n P := by
  have hmin := t.shape.min_le
  have htwo := t.shape.two_le
  have hend : endRounds t.toTemplateData = max (t.suffixRounds : Int) 1 := rfl
  obtain ⟨R', n, h1, h2, hv⟩ := exists_sameView
    (c.request.anchor k + (spreadOf t.toTemplateData layers c es).begin)
    (c.request.anchor k + (spreadOf t.toTemplateData layers c es).stop) (m := t.minRounds) hP1
    (by omega) hR (by omega)
  exact ⟨R', n, h1, h2, hv, hP, by omega, by omega⟩

include h hP1 hP hE hw hprobe hR

theorem long_deliveries :
    checkDeliveries (scheduleOf t.toTemplateData layers edges R) = .ok () := by
  have hspan := t.maxSpan_le_one
  have hinputs : ∀ S l k, (scheduledOf t.toTemplateData layers edges S l k).inputs =
    (edges.filter fun e => e.toNode = l.node).map (dependencyAt layers S k) := fun _ _ _ => rfl
  refine checkDeliveries_eq_ok.mpr fun w hwin => ?_
  obtain ⟨c, hc, k, hk, rfl⟩ := mem_scheduleOf.mp hwin
  -- What the probes say about one edge.
  have hedge : ∀ e ∈ edges, e.toNode = c.node → ∃ R' n,
      ProbeView t.toTemplateData layers c [e] k R R' n P ∧
      k + n ∈ c.request.instances R' ∧
      checkDeliveries (scheduleOf t.toTemplateData layers edges R') = .ok () := by
    intro e he hto
    have hfit := (hw.2 c hc).2 e he hto
    rw [hP c hc] at hfit
    obtain ⟨R', n, h1, h2, v⟩ := exists_probeView hP1 hP hE hR [e] k hfit
    exact ⟨R', n, v, (v.instance_iff h hc).mpr hk, (hprobe R' h1 h2).1⟩
  rw [hinputs]
  constructor
  · intro d hd hp
    obtain ⟨e, he, rfl⟩ := List.mem_map.mp hd
    obtain ⟨he, hto⟩ := List.mem_filter.mp he
    have hto : e.toNode = c.node := by simpa using hto
    obtain ⟨p, send, hs⟩ := h.exists_source he
    obtain ⟨R', n, v, hk', hok⟩ := hedge e he hto
    have hp' := (v.present_iff h hc (by simp) hs).mpr hp
    obtain ⟨hdel, -⟩ := checkDeliveries_eq_ok.mp hok _ (mem_windows_of hc hk')
    obtain ⟨p', hat, hdel⟩ := hdel (dependencyAt layers R' (k + n) e)
      (by rw [hinputs]; exact List.mem_map.mpr ⟨e, List.mem_filter.mpr ⟨he, by simpa using hto⟩, rfl⟩)
      hp'
    have hat' := hs.windowAt_eq (t := t.toTemplateData) h ((hs.present_iff h).mp hp')
    rw [← Except.ok.inj (hat'.symm.trans hat), hs.sendOf_eq h _ rfl] at hdel
    refine ⟨_, hs.windowAt_eq h ((hs.present_iff h).mp hp), ?_⟩
    rw [hs.sendOf_eq h _ rfl]
    exact v.delivers h hspan hc hk (by simp) hs hdel
  · -- Two edges that bring one send in the shot bring it in the probe of either.
    rw [List.filter_map, List.pairwise_map, List.pairwise_iff_forall_sublist]
    intro e e' hsub hsame
    have hmem : ∀ x ∈ [e, e'], x ∈ edges ∧ x.toNode = c.node ∧
        (dependencyAt layers R k x).present = true := by
      intro x hx
      have hx := hsub.subset hx
      simp only [List.mem_filter, Function.comp_apply, decide_eq_true_eq] at hx
      exact ⟨hx.1.1, hx.1.2, hx.2⟩
    obtain ⟨he, hto, hp⟩ := hmem e (by simp)
    obtain ⟨he', hto', hp'⟩ := hmem e' (by simp)
    obtain ⟨p, send, hs⟩ := h.exists_source he
    obtain ⟨R', n, v, hk', hok⟩ := hedge e he hto
    have hpe := (v.present_iff h hc (by simp) hs).mpr hp
    obtain ⟨hfrom, hidx, hout⟩ := hsame
    have hidx : k + e.indexOffset = k + e'.indexOffset := hidx
    have hs' : EdgeSource layers e' p send := ⟨hs.mem, hs.node.trans hfrom, hs.sends, hs.id.trans hout⟩
    have hpe' : (dependencyAt layers R' (k + n) e').present = true := by
      rw [hs.present_iff h] at hpe
      rw [hs'.present_iff h]
      rwa [show k + n + e'.indexOffset = k + n + e.indexOffset by omega]
    obtain ⟨-, hpair⟩ := checkDeliveries_eq_ok.mp hok _ (mem_windows_of hc hk')
    rw [hinputs, List.filter_map, List.pairwise_map, List.pairwise_iff_forall_sublist] at hpair
    refine hpair (a := e) (b := e') ?_ ⟨hfrom, show k + n + e.indexOffset = _ by
      show _ = k + n + e'.indexOffset
      omega, hout⟩
    have hsub' := (hsub.trans List.filter_sublist).filter
      (WindowDependency.present ∘ dependencyAt layers R' (k + n))
    simpa [hpe, hpe'] using hsub'

theorem long_imported :
    checkImported (scheduleOf t.toTemplateData layers edges R) = .ok () := by
  have hinputs : ∀ S l k, (scheduledOf t.toTemplateData layers edges S l k).inputs =
    (edges.filter fun e => e.toNode = l.node).map (dependencyAt layers S k) := fun _ _ _ => rfl
  have hthere : ∀ S, checkDeliveries (scheduleOf t.toTemplateData layers edges S) = .ok () →
      ∀ w ∈ (scheduleOf t.toTemplateData layers edges S).windows, ∀ d ∈ w.inputs,
        d.present = true → ∃ p, (scheduleOf t.toTemplateData layers edges S).windowAt
          d.fromNode d.k = .ok p := by
    intro S hok w hwin d hd hp
    obtain ⟨p, hat, -⟩ := (checkDeliveries_eq_ok.mp hok w hwin).1 d hd hp
    exact ⟨p, hat⟩
  -- whether an edge carries a residual depends on the edge and not on the shot
  have hres : ∀ S k e, e ∈ edges →
      (IsResidual (scheduleOf t.toTemplateData layers edges S) (dependencyAt layers S k e) ↔
        (dependencyAt layers S k e).present = true ∧ edgeMode layers e = .residual) := by
    intro S k e he
    obtain ⟨p, send, hs⟩ := h.exists_source he
    rw [hs.edgeMode_eq h]
    constructor
    · rintro ⟨hp, p', hat, hm⟩
      have hat' := hs.windowAt_eq (t := t.toTemplateData) h ((hs.present_iff h).mp hp)
      rw [← Except.ok.inj (hat'.symm.trans hat), hs.sendOf_eq h _ rfl] at hm
      exact ⟨hp, hm⟩
    · rintro ⟨hp, hm⟩
      refine ⟨hp, _, hs.windowAt_eq h ((hs.present_iff h).mp hp), ?_⟩
      rw [hs.sendOf_eq h _ rfl]
      exact hm
  refine (checkImported_eq_ok (hthere R (long_deliveries h hP1 hP hE hw hprobe hR))).mpr
    fun w hwin hne => ?_
  obtain ⟨c, hc, k, hk, rfl⟩ := mem_scheduleOf.mp hwin
  have hfit := (hw.2 c hc).1
  rw [hP c hc] at hfit
  -- the window looks as one of the probe does, whose import was checked
  obtain ⟨R', n, h1, h2, v⟩ :=
    exists_probeView hP1 hP hE hR (residualEdges layers edges c) k hfit
  have hk' := (v.instance_iff h hc).mpr hk
  obtain ⟨hdel, -, -, himp⟩ := hprobe R' h1 h2
  have hone := (checkImported_eq_ok (hthere R' hdel)).mp himp _ (mem_windows_of hc hk')
    fun hn => hne ((v.imports_empty_iff h hc hk).mp hn)
  rw [hinputs, List.countP_map] at hone ⊢
  rw [← hone]
  refine List.countP_congr fun e he => ?_
  obtain ⟨he, hto⟩ := List.mem_filter.mp he
  obtain ⟨p, send, hs⟩ := h.exists_source he
  simp only [Function.comp_apply, decide_eq_true_eq, hres R k e he, hres R' (k + n) e he]
  refine and_congr_left fun hm => (v.present_iff h hc ?_ hs).symm
  exact List.mem_filter.mpr ⟨he, by simpa using ⟨by simpa using hto, hm⟩⟩

omit hw in
theorem long_commits : checkCommits t.toTemplateData (scheduleOf t.toTemplateData layers edges R) =
    .ok () := by
  refine h.checkCommits_eq_ok.mpr fun q hq htouch => ?_
  obtain ⟨R', q', h1, h2, hq', ⟨n, hn⟩, -, hsame⟩ := exists_probe_round t hP1 hE hR hq
  have hprobe' := h.checkCommits_eq_ok.mp (hprobe R' h1 h2).2.1 q' hq' (by rwa [hsame.1])
  rw [h.committed_iff (by omega) (by omega)] at hprobe' ⊢
  rw [hn]
  exact hprobe'.shift hP n

omit hw in
theorem long_rows : checkRows t.toTemplateData (scheduleOf t.toTemplateData layers edges R) =
    .ok () := by
  have hend : endRounds t.toTemplateData = max (t.suffixRounds : Int) 1 := rfl
  have hR0 : 0 < R := by omega
  refine (h.checkRows_eq_ok hR0).mpr fun q hq i own incoming htouch => ?_
  obtain ⟨R', q', h1, h2, hq', ⟨n, hn⟩, hpos, hsame⟩ := exists_probe_round t hP1 hE hR hq
  obtain ⟨hi, hown, hincoming, hany⟩ := htouch
  have hin : incoming = true → 0 < q := by
    intro ht
    by_contra h0
    rw [hincoming] at ht
    simp [incomingAt, Nat.eq_zero_of_not_pos h0] at ht
  have hprobe' := (h.checkRows_eq_ok (by omega)).mp (hprobe R' h1 h2).2.2.1 q' hq' i own incoming
    ⟨by rwa [hsame.1], by rwa [hsame.1], by rwa [hsame.2], hany⟩
  rw [h.rowSettled_iff (by omega) (by omega) (by omega) (by
    intro ht
    have := hin ht
    omega)] at hprobe'
  rw [h.rowSettled_iff hR0 (by omega) (by omega) (by
    intro ht
    have := hin ht
    omega)]
  have hinner : (0 < (q' : Int)) = (0 < (q : Int)) := by
    rw [eq_iff_iff]
    omega
  rw [hinner] at hprobe'
  have hshift := hprobe'.shift hP n
  rwa [← hn] at hshift

end

/-! ## Graphs without layers -/

/-- Every chunk of a shot stands in the shortest one, if that has a round of the repeating phase and one
after it. -/
theorem exists_shortest_round (t : ExperimentTemplate) {R q : Nat}
    (hshows : t.prefixRounds + 1 + max t.suffixRounds 1 ≤ t.minRounds) (hR : t.minRounds ≤ R)
    (hq : q < R) : ∃ q' < t.minRounds, t.chunk q R = t.chunk q' t.minRounds := by
  by_cases hpre : q < t.prefixRounds
  · exact ⟨q, by omega, chunk_eq_of_prefix hpre (by omega) (by omega)⟩
  by_cases htail : R ≤ q + max t.suffixRounds 1
  · exact ⟨q + t.minRounds - R, by omega,
      chunk_eq_of_end (by omega) (by omega) (by omega) (by omega) (by omega)⟩
  · exact ⟨t.prefixRounds, by omega,
      chunk_eq_of_bulk (by omega) (by omega) (by omega) (by omega) (by omega) (by omega)⟩

theorem firstDetectable_eq_none {touch : ChunkTouch} (h : touch.firstDetectable = none) (i : Nat) :
    touch.own.getD i none = none ∧ touch.next.getD i none = none := by
  rw [ChunkTouch.firstDetectable, List.min?_eq_none_iff, List.filterMap_eq_nil_iff] at h
  have hnone : ∀ l : List (Option Nat), (∀ x ∈ l, x = none) → l.getD i none = none := by
    intro l hl
    rw [List.getD_eq_getElem?_getD]
    cases hx : l[i]? with
    | none => rfl
    | some x => exact hl x (List.mem_of_getElem? hx)
  exact ⟨hnone _ fun x hx => h x (List.mem_append_left _ hx),
    hnone _ fun x hx => h x (List.mem_append_right _ hx)⟩

/-- Without layers a shot passes exactly if none of its faults can be detected. -/
theorem passes_nil_iff {t : TemplateData} {edges : List TaskGraphEdge} {R : Nat}
    (h : WindowGraph [] edges) (hR : 0 < R) :
    Passes t (scheduleOf t [] edges R) ↔ ∀ q < R, (touchAt t R q).firstDetectable = none := by
  constructor
  · intro hpass q hq
    by_contra htouch
    obtain ⟨w, hw, -⟩ := h.checkCommits_eq_ok.mp hpass.2.1 q hq htouch
    cases hw
  · intro hnone
    refine ⟨rfl, h.checkCommits_eq_ok.mpr fun q hq htouch => absurd (hnone q hq) htouch, ?_, rfl⟩
    refine (h.checkRows_eq_ok hR).mpr fun q hq i own incoming htouch => ?_
    obtain ⟨-, rfl, rfl, hany⟩ := htouch
    have hown := (firstDetectable_eq_none (hnone q hq) i).1
    have hincoming : incomingAt t R q i = none := by
      unfold incomingAt
      split
      · rfl
      · exact (firstDetectable_eq_none (hnone (q - 1) (by omega)) i).2
    rw [hown, hincoming] at hany
    simp at hany

instance (t : TemplateData) (layers : List WindowLayer) (edges : List TaskGraphEdge) (R : Nat) :
    Decidable (PassesAt t layers edges R) :=
  match h : scheduleWindows t layers edges R with
  | .ok s => decidable_of_iff (Passes t s) (by simp [PassesAt, h])
  | .error _ => isFalse (by simp [PassesAt, h])

/-- A sliding window: each round is committed with one more round in view, and its faults' flips on
that round are handed on. -/
def slidingRequest : WindowRequest where
  period := 1
  commit := some ⟨0, 1⟩
  buffers := [⟨1, 2⟩]
  input := { disposition := some .closed }
  output := { disposition := some .opened }
  sends := [{ id := "forward" }]

def slidingLayers : List WindowLayer := [⟨"W", slidingRequest⟩]

def slidingEdges : List TaskGraphEdge := [⟨"W", "forward", "W", "receive_0", -1⟩]

def localPhase : DemChunkSpec :=
  { numFaults := 1
    seamSpecs := [⟨⟨0⟩, ⟨[0, -1], []⟩⟩, ⟨⟨1⟩, ⟨[-1], []⟩⟩]
    oSparse := [0, -1]
    errorRates := [1 / 10] }

def localSpec : DemChunksSpec where
  phases := [⟨⟨10⟩, localPhase⟩, ⟨⟨11⟩, localPhase⟩, ⟨⟨12⟩, localPhase⟩]
  connections := [⟨⟨10⟩, ⟨11⟩⟩, ⟨⟨11⟩, ⟨11⟩⟩, ⟨⟨11⟩, ⟨12⟩⟩]
  seam := ⟨⟨1⟩, ⟨0⟩⟩

def localTemplate : ExperimentTemplate where
  toTemplateData := (buildTemplate localSpec).toOption.get (by decide +kernel)
  built := by decide +kernel

def alternateRequest (offset : Int) (sends : List SendRequest) : WindowRequest where
  period := 2
  offset := offset
  commit := some ⟨0, 1⟩
  input := { disposition := some .closed }
  output := { disposition := some .closed }
  sends := sends

def offsetLayers : List WindowLayer :=
  [⟨"A", alternateRequest 0 []⟩,
    ⟨"B", alternateRequest 21 [{ id := "x", mode := some .delta, rounds := [⟨0, 1⟩] }]⟩]

def offsetEdges : List TaskGraphEdge := [⟨"B", "x", "A", "receive_0", 0⟩]

end CudaqQec
