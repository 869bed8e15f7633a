import CudaqQec.Graph.LogicalOutput
import CudaqQec.Node.ReadoutOrder

/-!
# What late deltas can change

The deltas of a shot that come late begin at the frontier or behind it, and what flips in a round is read
in that round or later. So they leave an observable whose last readout is before the frontier.

* `Admissible`: the deltas that the windows of one shot can commit.
* `StagerHolds`: what a stager holds of the deltas it was given, in any order.
-/

namespace CudaqQec

open Frames Checked Delta Piece OutputStager DemChunksSpec

/-! ## The deltas of a shot -/

/-- Deltas that the windows of one admitted shot can commit: each flips only what the phase of one of its
rounds flips in the closed chain, and one of the whole shot begins where no other one ends later. -/
def Admissible (t : TemplateData) (ds : List Delta) : Prop :=
  ∃ R seq, t.Admits R ∧ (t.spec.withRounds R).phaseSequence = .ok seq ∧
    (∀ d ∈ ds, ∀ i < t.numObservables, d.load.getD i 0 ≠ 0 → ∃ r id, d.begin ≤ r ∧ r < d.stop ∧
      seq[r]? = some id ∧ flipsObservable (t.phaseSpec id) i = true) ∧
    ∀ w ∈ wholes ds, ∀ p ∈ proper ds, p.stop ≤ w.begin

/-- A delta that begins after an observable is completed, or commits no round, leaves it. -/
theorem Admissible.load_eq_zero {t : ExperimentTemplate} {ds : List Delta} {d : Delta} {i c : Nat}
    (h : Admissible t.toTemplateData ds) (hd : d ∈ ds) (hi : i < t.numObservables)
    (hc : t.completion i = some c) (hlate : c < d.begin ∨ d.stop ≤ d.begin) : d.load.getD i 0 = 0 := by
  obtain ⟨R, seq, hR, hseq, hflips, -⟩ := h
  by_contra hne
  obtain ⟨r, id, hbegin, hstop, hr, hflip⟩ := hflips d hd i hi hne
  have := t.flips_le_completion hR hseq hr hi hc hflip
  omega

/-! ## What a stager holds -/

/-- What a stager holds of the deltas `ds`. -/
structure StagerHolds (ds : List Delta) (s : OutputStager) : Prop where
  frontier : s.frontier = 0 ∨ ∃ p ∈ proper ds, s.frontier = p.stop
  pending : ∀ e ∈ s.pending, intervalAt s.intervals e ∈ proper ds
  nodup : (s.pending ++ s.spare).Nodup
  slots : ∀ e ∈ s.pending ++ s.spare, e < s.intervals.length
  whole : ∀ i, (∀ w ∈ wholes ds, w.load.getD i 0 = 0) → s.whole.getD i 0 = 0
  unset : s.hasWhole = false → ∀ i, s.whole.getD i 0 = 0

variable {name : String} {ds es : List Delta} {d : Delta} {s s' : OutputStager} {i : Nat}

theorem mem_proper : d ∈ proper ds ↔ d ∈ ds ∧ d.stop ≠ wholeShot ∧ d.begin < d.stop := by
  unfold proper isWhole
  rw [List.mem_filter]
  simp

theorem mem_wholes : d ∈ wholes ds ↔ d ∈ ds ∧ d.stop = wholeShot := by
  unfold wholes isWhole
  rw [List.mem_filter]
  simp

theorem StagerHolds.append (h : StagerHolds ds s) (es : List Delta) : StagerHolds (ds ++ es) s where
  frontier := by
    rcases h.frontier with hzero | ⟨p, hp, hstop⟩
    · exact .inl hzero
    · refine .inr ⟨p, ?_, hstop⟩
      rw [proper_append]
      exact List.mem_append_left _ hp
  pending e he := by
    rw [proper_append]
    exact List.mem_append_left _ (h.pending e he)
  nodup := h.nodup
  slots := h.slots
  whole i hw := h.whole i fun w hw' => hw w (by
    rw [wholes_append]
    exact List.mem_append_left _ hw')
  unset := h.unset

theorem getD_xorInto_of_zero {a b : List UInt8} (ha : a.getD i 0 = 0) (hb : b.getD i 0 = 0) :
    (xorInto a b).getD i 0 = 0 := by
  rw [List.getD_eq_getElem?_getD, getElem?_xorInto_of_zero a hb, ← List.getD_eq_getElem?_getD]
  exact ha

/-- The intervals in the slots once `d` was put into one of them. -/
theorem intervals_set {intervals : List Delta} {pending : List Nat} {slot : Nat}
    (hslot : slot < intervals.length)
    (hpending : ∀ e ∈ pending, intervalAt intervals e ∈ proper ds) (hd : d ∈ proper (ds ++ [d])) :
    ∀ e, e = slot ∨ e ∈ pending → intervalAt (intervals.set slot d) e ∈ proper (ds ++ [d]) := by
  intro e he
  by_cases heq : e = slot
  · rw [heq, intervalAt_set_self hslot]
    exact hd
  · have he := he.resolve_left heq
    rw [intervalAt_set_of_ne heq, proper_append]
    exact List.mem_append_left _ (hpending e he)

/-! ## Staging -/

/-- A delta is folded only from the frontier on. -/
theorem StagerHolds.stageDelta (h : StagerHolds ds s) (hstage : s.stageDelta name d = .ok s') :
    StagerHolds (ds ++ [d]) s' ∧ s.frontier ≤ s'.frontier ∧
    ∀ i, (∀ e ∈ proper (ds ++ [d]), s.frontier ≤ e.begin → e.load.getD i 0 = 0) →
      (d.stop ≤ d.begin → d.load.getD i 0 = 0) → s'.bits[i]? = s.bits[i]? := by
  have happend := h.append [d]
  have hmem : d ∈ ds ++ [d] := List.mem_append_right _ (List.mem_singleton_self d)
  unfold OutputStager.stageDelta at hstage
  split at hstage
  · -- a delta of the whole shot is kept apart
    rename_i hwhole
    cases hstage
    refine ⟨⟨happend.frontier, happend.pending, h.nodup, h.slots, fun i hi => ?_, fun hno => ?_⟩,
      Nat.le_refl _, fun _ _ _ => rfl⟩
    · apply getD_xorInto_of_zero (happend.whole i hi)
      exact hi d (mem_wholes.mpr ⟨hmem, hwhole⟩)
    · cases hno
  rename_i hfinite
  split at hstage
  · -- a delta that commits no round joins the frame at once
    rename_i hempty
    cases hstage
    exact ⟨⟨happend.frontier, happend.pending, h.nodup, h.slots, happend.whole, h.unset⟩,
      Nat.le_refl _, fun i _ hzero => getElem?_xorInto_of_zero _ (hzero hempty)⟩
  rename_i hnonempty
  have hd : d ∈ proper (ds ++ [d]) := mem_proper.mpr ⟨hmem, hfinite, Nat.lt_of_not_le hnonempty⟩
  -- refused: behind the frontier, a full queue, no spare slot
  split at hstage
  · cases hstage
  split at hstage
  · cases hstage
  split at hstage
  · cases hstage
  rename_i slot hlast
  have hspare : s.spare = s.spare.dropLast ++ [slot] := (List.dropLast_append_getLast? slot hlast).symm
  have hslotMem : slot ∈ s.spare := by
    rw [hspare]
    exact List.mem_append_right _ (List.mem_singleton_self slot)
  have hslot : slot < s.intervals.length := h.slots slot (List.mem_append_right _ hslotMem)
  -- the slot is queued where its first round belongs, and then the queue is drained
  let before := fun entry => decide ((intervalAt s.intervals entry).begin ≤ d.begin)
  let queue := s.pending.takeWhile before ++ slot :: s.pending.dropWhile before
  have hqueue : queue.Perm (slot :: s.pending) := by
    refine List.perm_middle.trans ?_
    rw [List.takeWhile_append_dropWhile]
  have hintervals : ∀ e ∈ queue, intervalAt (s.intervals.set slot d) e ∈ proper (ds ++ [d]) := by
    intro e he
    apply intervals_set hslot h.pending hd
    exact List.mem_cons.mp (hqueue.mem_iff.mp he)
  obtain ⟨drained, kept, hsplit, hdrained, hkept, hadvance⟩ := advance_eq { s with
    intervals := s.intervals.set slot d
    spare := s.spare.dropLast } false queue
  dsimp only at hdrained hkept hadvance
  have hproper : ∀ p ∈ queue.map (intervalAt (s.intervals.set slot d)), p.begin < p.stop := by
    intro p hp
    obtain ⟨e, he, rfl⟩ := List.mem_map.mp hp
    exact (mem_proper.mp (hintervals e he)).2.2
  obtain ⟨hle, hfrom, hend⟩ := drain_le s.frontier _ hproper
  -- draining moves slots from the queue to the spare ones and loses none
  have hperm : (kept ++ (s.spare.dropLast ++ drained)).Perm (s.pending ++ s.spare) := by
    have hall : (queue ++ s.spare.dropLast).Perm (s.pending ++ s.spare) := by
      refine (hqueue.append_right _).trans ?_
      rw [hspare, List.dropLast_concat, ← List.append_assoc]
      exact (List.perm_append_singleton slot _).symm
    refine List.Perm.trans ?_ hall
    rw [hsplit, List.append_assoc, ← List.append_assoc kept]
    exact List.perm_append_comm
  have hkeptMem : ∀ e ∈ kept, e ∈ queue := fun e he => hsplit ▸ List.mem_append_right _ he
  have hdrainedMem : ∀ e ∈ drained, e ∈ queue := fun e he => hsplit ▸ List.mem_append_left _ he
  let folded : OutputStager := { s with
    bits := xorAll s.bits (loads (drained.map (intervalAt (s.intervals.set slot d))))
    frontier := (drain s.frontier (queue.map (intervalAt (s.intervals.set slot d)))).2.1
    intervals := s.intervals.set slot d
    spare := s.spare.dropLast ++ drained
    pending := kept }
  have hholds : StagerHolds (ds ++ [d]) folded := by
    refine ⟨?_, fun e he => hintervals e (hkeptMem e he), hperm.nodup_iff.mpr h.nodup,
      fun e he => ?_, happend.whole, h.unset⟩
    · rcases hend with hend | ⟨p, hp, hend⟩
      · rcases happend.frontier with hzero | ⟨p, hp, hstop⟩
        · exact .inl (hend.trans hzero)
        · exact .inr ⟨p, hp, hend.trans hstop⟩
      · obtain ⟨e, he, rfl⟩ := List.mem_map.mp hp
        exact .inr ⟨_, hintervals e he, hend⟩
    · change e < (s.intervals.set slot d).length
      rw [List.length_set]
      exact h.slots e (hperm.mem_iff.mp he)
  -- only deltas that begin at the old frontier or later were drained into the bits
  have hbits : ∀ i, (∀ e ∈ proper (ds ++ [d]), s.frontier ≤ e.begin → e.load.getD i 0 = 0) →
      folded.bits[i]? = s.bits[i]? := by
    intro i hzero
    apply getElem?_xorAll_of_zero
    intro v hv
    obtain ⟨p, hp, rfl⟩ := List.mem_map.mp hv
    obtain ⟨e, he, rfl⟩ := List.mem_map.mp hp
    apply hzero _ (hintervals e (hdrainedMem e he))
    apply hfrom
    rw [hdrained]
    exact List.mem_map_of_mem he
  have hfolded : s' = folded ∨ s' = { folded with generation := folded.generation + 1 } := by
    change Except.ok (if (advance _ false queue).2 = true then _ else _) = _ at hstage
    rw [hadvance] at hstage
    split at hstage
    · exact .inr (Except.ok.inj hstage).symm
    · exact .inl (Except.ok.inj hstage).symm
  rcases hfolded with rfl | rfl
  · exact ⟨hholds, hle, fun i hi _ => hbits i hi⟩
  · exact ⟨⟨hholds.frontier, hholds.pending, hholds.nodup, hholds.slots, hholds.whole, hholds.unset⟩, hle,
      fun i hi _ => hbits i hi⟩

theorem StagerHolds.stageAll (h : StagerHolds ds s) (hstage : s.stageAll name es = .ok s') :
    StagerHolds (ds ++ es) s' ∧ s.frontier ≤ s'.frontier ∧
    ∀ i, (∀ e ∈ proper (ds ++ es), s.frontier ≤ e.begin → e.load.getD i 0 = 0) →
      (∀ e ∈ es, e.stop ≤ e.begin → e.load.getD i 0 = 0) → s'.bits[i]? = s.bits[i]? := by
  induction es generalizing ds s with
  | nil =>
    cases hstage
    rw [List.append_nil]
    exact ⟨h, Nat.le_refl _, fun _ _ _ => rfl⟩
  | cons d es ih =>
    unfold OutputStager.stageAll at hstage
    rw [List.foldlM_cons, bind_eq_ok] at hstage
    obtain ⟨s₁, hd, hrest⟩ := hstage
    obtain ⟨h₁, hle, hbits⟩ := h.stageDelta hd
    obtain ⟨h', hle', hbits'⟩ := ih h₁ hrest
    have happend : ds ++ [d] ++ es = ds ++ d :: es := by simp
    rw [happend] at h' hbits'
    refine ⟨h', Nat.le_trans hle hle', fun i hproper hempty => ?_⟩
    rw [hbits' i (fun e he hlate => hproper e he (Nat.le_trans hle hlate))
      fun e he => hempty e (List.mem_cons_of_mem _ he)]
    apply hbits i (fun e he hlate => hproper e ?_ hlate) (hempty d (List.mem_cons_self ..))
    rw [← happend, proper_append]
    exact List.mem_append_left _ he

/-! ## Refreshing -/

/-- What a refresh without a logical release leaves of the stager and of the coverage. -/
theorem refreshStaged_ok {final : Bool} {output output' : OutputProgress}
    (h : refreshStaged final none s output = .ok (s', output')) :
    (if final then s.foldWholeShot else .ok s) = .ok s' ∧ output'.coverageEndRound =
      if output.generation < s'.generation then s'.frontier else output.coverageEndRound := by
  have hshown : ∀ s₁ : OutputStager, ∀ p : Prop, ∀ [Decidable p],
      (if p then { (if output.generation < s₁.generation then
        (⟨s₁.generation, s₁.begin, s₁.frontier, .available⟩ : OutputProgress) else output) with
          status := .complete }
      else if output.generation < s₁.generation then
        ⟨s₁.generation, s₁.begin, s₁.frontier, .available⟩ else output).coverageEndRound =
      if output.generation < s₁.generation then s₁.frontier else output.coverageEndRound := by
    intro s₁ p _
    split <;> split <;> rfl
  cases final with
  | false =>
    unfold refreshStaged at h
    obtain ⟨rfl, rfl⟩ := Prod.mk.inj (Except.ok.inj h)
    exact ⟨rfl, hshown s _⟩
  | true =>
    unfold refreshStaged at h
    rw [if_pos rfl] at h
    rw [if_pos rfl]
    cases hfold : s.foldWholeShot with
    | error e =>
      rw [hfold] at h
      cases h
    | ok s₁ =>
      rw [hfold] at h
      obtain ⟨rfl, rfl⟩ := Prod.mk.inj (Except.ok.inj h)
      exact ⟨rfl, hshown _ _⟩

/-- A refresh folds at most what is held for the end of the shot. -/
theorem StagerHolds.refresh {final : Bool} {output output' : OutputProgress} (h : StagerHolds ds s)
    (hshown : output.coverageEndRound ≤ s.frontier)
    (href : refreshStaged final none s output = .ok (s', output')) :
    StagerHolds ds s' ∧ s'.frontier = s.frontier ∧ s'.pending = s.pending ∧
    output'.coverageEndRound ≤ s.frontier ∧
    (s'.hasWhole = false ∨ final = false ∧ s'.hasWhole = s.hasWhole) ∧
    ∀ i, s.whole.getD i 0 = 0 → s'.bits[i]? = s.bits[i]? := by
  obtain ⟨hfold, hcoverage⟩ := refreshStaged_ok href
  have hfolded : StagerHolds ds s' ∧ s'.frontier = s.frontier ∧ s'.pending = s.pending ∧
      (s'.hasWhole = false ∨ final = false ∧ s'.hasWhole = s.hasWhole) ∧
      ∀ i, s.whole.getD i 0 = 0 → s'.bits[i]? = s.bits[i]? := by
    cases final with
    | false =>
      cases hfold
      exact ⟨h, rfl, rfl, .inr ⟨rfl, rfl⟩, fun _ _ => rfl⟩
    | true =>
      rw [if_pos rfl] at hfold
      unfold foldWholeShot at hfold
      split at hfold
      · rename_i hno
        cases hfold
        exact ⟨h, rfl, rfl, .inl (by simpa using hno), fun _ _ => rfl⟩
      · split at hfold
        · cases hfold
        · cases hfold
          have hzero : ∀ i, (s.whole.map fun _ => (0 : UInt8)).getD i 0 = 0 := by
            intro i
            rw [List.getD_eq_getElem?_getD, List.getElem?_map]
            cases s.whole[i]? <;> rfl
          exact ⟨⟨h.frontier, h.pending, h.nodup, h.slots, fun i _ => hzero i, fun _ => hzero⟩, rfl, rfl,
            .inl rfl, fun i hi => getElem?_xorInto_of_zero _ hi⟩
  obtain ⟨hholds, hfrontier, hpending, hhas, hbits⟩ := hfolded
  refine ⟨hholds, hfrontier, hpending, ?_, hhas, hbits⟩
  rw [hcoverage]
  split
  · exact Nat.le_of_eq hfrontier
  · exact hshown

end CudaqQec
