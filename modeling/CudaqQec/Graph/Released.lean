import CudaqQec.Graph.LateDeltas

/-!
# A released observable is final

Once an observable is released, its value does not change before the shot is consumed: later deltas leave
it, and the readout does not read again what it has read. `Tracks` is the invariant that carries this over
a run, and `released_final` the result.

It needs that a shot which is consumed is complete. Consuming one that has ended while another output of
the graph has nothing to show leaves the coverage of the readout and of the output in place, and the next
shot is released by it: `not_released_final`.
-/

namespace CudaqQec

open Frames Checked Delta Piece OutputStager DemChunksSpec

/-! ## What a released observable rests on -/

namespace LogicalState

open ReadoutState

variable {t : ExperimentTemplate} {o : LogicalOutput} {s s' : LogicalState} {ds es : List Delta}

/-- What the output shows of an observable is all that the readout will read of it. -/
def Final (o : LogicalOutput) (s : LogicalState) (i : Nat) : Prop :=
  Settled o.readout s.readout i ∧ s.corrections[i]? = s.readout.read[i]?

/-- A graph that has not failed, in a shot that has staged `ds`. -/
structure Tracks (o : LogicalOutput) (ds : List Delta) (s : LogicalState) : Prop where
  reading : Reading o.readout s.readout
  ended : s.readout.published = true → s.readout.ended = true
  unpublished : s.finalized = false → s.readout.published = false
  stager : StagerHolds ds s.stager
  shown : s.progress.coverageEndRound ≤ s.stager.frontier
  folded : s.finalized = true → s.stager.hasWhole = false
  captured : s.finalized = false → ∀ e, s.coverage = some e → ∀ i c,
    o.readout.completion[i]? = some (some c) → c < e → Final o s i
  released : s.finalized = false → ∀ i, s.released[i]? = some true → ∃ c,
    o.readout.completion[i]? = some (some c) ∧ c < s.stager.frontier ∧ Final o s i
  closed : s.shotOpen = false → s.finalized = false →
    s.stager.frontier = 0 ∧ s.stager.pending = [] ∧ s.stager.hasWhole = false ∧ s.coverage = none

/-! ## Values that stay -/

/-- What is released stays released, and keeps its value. -/
def Keeps (o : LogicalOutput) (s s' : LogicalState) : Prop :=
  ∀ i : Nat, s.released[i]? = some true →
    s'.released[i]? = some true ∧ (s'.value o)[i]? = (s.value o)[i]?

theorem Keeps.refl (o : LogicalOutput) (s : LogicalState) : Keeps o s s := fun _ hi => ⟨hi, rfl⟩

theorem Keeps.trans {s'' : LogicalState} (h : Keeps o s s') (h' : Keeps o s' s'') : Keeps o s s'' := by
  intro i hi
  obtain ⟨hi', hvalue⟩ := h i hi
  obtain ⟨hi'', hvalue'⟩ := h' i hi'
  exact ⟨hi'', hvalue'.trans hvalue⟩

theorem value_congr {i : Nat} (hbits : s'.stager.bits[i]? = s.stager.bits[i]?)
    (hcorrections : s'.corrections[i]? = s.corrections[i]?) : (s'.value o)[i]? = (s.value o)[i]? := by
  unfold value
  split
  · rw [getElem?_xorInto, getElem?_xorInto, hbits, List.getD_eq_getElem?_getD, hcorrections,
      ← List.getD_eq_getElem?_getD]
  · exact hbits

theorem refresh_eq {final available : Bool} (h : s.refresh o final available = .ok s') :
    ∃ stager progress status released, refreshStaged final none s.stager s.progress =
      .ok (stager, progress) ∧
      released = { s with stager := stager, progress := progress }.releaseLogical o final ∧
      s' = { s with
        stager := stager
        progress := { progress with status := status }
        released := released
        status := if available then (if final then .complete else .available) else .pending } := by
  simp only [refresh, bind_eq_ok] at h
  obtain ⟨⟨stager, progress⟩, href, h⟩ := h
  exact ⟨stager, progress, _, _, href, rfl, (Except.ok.inj h).symm⟩

/-! ## Releasing -/

theorem releaseLogical_of_released {final : Bool} {i : Nat} (h : s.released[i]? = some true) :
    (s.releaseLogical o final)[i]? = some true := by
  unfold releaseLogical
  simp only [List.getElem?_mapIdx, h, Option.map_some, Bool.true_or]

/-- Between the records, what is released is behind the frontier and behind what was captured. -/
theorem releaseLogical_false {i : Nat} (h : (s.releaseLogical o false)[i]? = some true) :
    s.released[i]? = some true ∨ ∃ c e, o.readout.completion[i]? = some (some c) ∧
      c < s.progress.coverageEndRound ∧ s.coverage = some e ∧ c < e := by
  unfold releaseLogical at h
  simp only [List.getElem?_mapIdx, Bool.false_and, Bool.or_false] at h
  cases hreleased : s.released[i]? with
  | none => simp [hreleased] at h
  | some released =>
    cases released with
    | true => exact .inl rfl
    | false =>
      right
      simp only [hreleased, Option.map_some, Bool.false_or, Option.some.injEq, Option.any_eq_true,
        decide_eq_true_eq] at h
      obtain ⟨c, hc, hlt⟩ := h
      cases he : s.coverage with
      | none =>
        rw [he] at hlt
        simp at hlt
      | some e =>
        rw [he] at hlt
        refine ⟨c, e, ?_, by simp at hlt; omega, rfl, by simp at hlt; omega⟩
        rw [List.getD_eq_getElem?_getD] at hc
        cases hcompletion : o.readout.completion[i]? with
        | none =>
          rw [hcompletion] at hc
          cases hc
        | some completion =>
          rw [hcompletion] at hc
          exact congrArg some hc

theorem load_eq_zero (hcompletion : o.readout.completion =
      (List.range t.numObservables).map t.completion) {i c : Nat} {d : Delta}
    (hadm : Admissible t.toTemplateData ds) (hc : o.readout.completion[i]? = some (some c))
    (hd : d ∈ ds) (hlate : c < d.begin ∨ d.stop ≤ d.begin) : d.load.getD i 0 = 0 := by
  have hi : i < t.numObservables := by
    have := (List.getElem?_eq_some_iff.mp hc).1
    rwa [hcompletion, List.length_map, List.length_range] at this
  rw [hcompletion, List.getElem?_map, List.getElem?_range hi] at hc
  exact hadm.load_eq_zero hd hi (Option.some.inj hc) hlate

/-! ## One call -/

/-- What the deltas that arrive leave of a completed observable. -/
theorem Tracks.staged (htracks : Tracks o ds s) (hlive : s.finalized = false)
    (hcompletion : o.readout.completion = (List.range t.numObservables).map t.completion)
    (hadm : Admissible t.toTemplateData (ds ++ es)) {stager : OutputStager}
    (hstage : stageAll o.name s.stager es = .ok stager) :
    StagerHolds (ds ++ es) stager ∧ s.stager.frontier ≤ stager.frontier ∧
    ∀ i, s.released[i]? = some true →
      stager.bits[i]? = s.stager.bits[i]? ∧ stager.whole.getD i 0 = 0 := by
  obtain ⟨hholds, hle, hbits⟩ := htracks.stager.stageAll hstage
  refine ⟨hholds, hle, fun i hi => ?_⟩
  obtain ⟨c, hc, hlt, -⟩ := htracks.released hlive i hi
  constructor
  · apply hbits i
    · intro e he hlate
      exact load_eq_zero hcompletion hadm hc (mem_proper.mp he).1 (.inl (Nat.lt_of_lt_of_le hlt hlate))
    · intro e he hempty
      exact load_eq_zero hcompletion hadm hc (List.mem_append_right _ he) (.inr hempty)
  · -- a delta of the whole shot begins where the frontier can be at most
    apply hholds.whole i
    intro w hw
    have hbehind : stager.frontier ≤ w.begin := by
      obtain ⟨-, -, -, -, -, hwhole⟩ := hadm
      rcases hholds.frontier with hzero | ⟨p, hp, hstop⟩
      · exact hzero ▸ Nat.zero_le _
      · rw [hstop]
        exact hwhole w hw p hp
    exact load_eq_zero hcompletion hadm hc (mem_wholes.mp hw).1 (.inl (by omega))

/-- A record. -/
theorem Tracks.enqueue (htracks : Tracks o ds s) (hlive : s.finalized = false) (hsound : Sound o.readout)
    (hcompletion : o.readout.completion = (List.range t.numObservables).map t.completion)
    (hadm : Admissible t.toTemplateData (ds ++ es)) {msyn : List UInt8} {type : RoundType}
    (h : s.enqueue o msyn type es = .ok s') : Tracks o (ds ++ es) s' ∧ Keeps o s s' := by
  simp only [LogicalState.enqueue, bind_eq_ok, thrown_eq_ok] at h
  obtain ⟨⟨readout, fired⟩, hread, stager, hstage, h⟩ := h
  obtain ⟨hreading, hkeep, hpublished⟩ := enqueue_spec hsound.ordered htracks.reading hread
  obtain ⟨hholds, hle, hbits⟩ := htracks.staged hlive hcompletion hadm hstage
  have hunpublished : readout.published = false := hpublished.trans (htracks.unpublished hlive)
  let s₁ : LogicalState := { s with
    readout := readout
    stager := stager
    shotOpen := true }
  have hfinal : ∀ i, Final o s i → Final o s₁ i := by
    intro i hi
    obtain ⟨hsettled, hsame⟩ := hkeep i hi.1
    exact ⟨hsettled, hi.2.trans hsame.symm⟩
  -- first what the record leaves before anything is captured
  have hs₁ : Tracks o (ds ++ es) s₁ := by
    refine ⟨hreading, fun hp => ?_, fun _ => hunpublished, hholds, Nat.le_trans htracks.shown hle,
      fun hf => ?_, fun _ e he i c hc hlt => hfinal i (htracks.captured hlive e he i c hc hlt),
      fun _ i hi => ?_, fun hopen => ?_⟩
    · rw [hunpublished] at hp
      cases hp
    · rw [hlive] at hf
      cases hf
    · obtain ⟨c, hc, hlt, hi⟩ := htracks.released hlive i hi
      exact ⟨c, hc, Nat.lt_of_lt_of_le hlt hle, hfinal i hi⟩
    · cases hopen
  have hvalue : Keeps o s s₁ := by
    intro i hi
    exact ⟨hi, value_congr (hbits i hi).1 rfl⟩
  split at h
  · -- the readout is captured
    cases h
    -- an output is captured only where its rounds are read, and then its value is the final one
    have hcaptured : ∀ i c, o.readout.completion[i]? = some (some c) →
        Settled o.readout readout i → Final o s₁.capture i := by
      intro i c hc hsettled
      exact ⟨hsettled, hreading.value i hsettled (hsound.tail i c hc)⟩
    have hread : ∀ i, s.released[i]? = some true → Final o s₁.capture i ∧ Final o s₁ i := by
      intro i hi
      obtain ⟨c, hc, -, hi⟩ := hs₁.released hlive i hi
      exact ⟨hcaptured i c hc hi.1, hi⟩
    constructor
    · refine ⟨hreading, hs₁.ended, hs₁.unpublished, hholds, hs₁.shown, hs₁.folded, fun _ e he i c hc hlt => ?_,
        fun _ i hi => ?_, fun hopen => ?_⟩
      · apply hcaptured i c hc
        intro g hg hreads
        have hround := hsound.head i c hc g (List.mem_of_mem_drop hg) hreads
        have hfront := hreading.front hunpublished g hg
        have he : readout.coverage = some e := he
        unfold ReadoutState.coverage at he
        split at he
        · cases he
        · cases he
          omega
      · obtain ⟨c, hc, hlt, -⟩ := hs₁.released hlive i hi
        exact ⟨c, hc, hlt, (hread i hi).1⟩
      · cases hopen
    · apply hvalue.trans
      intro i hi
      refine ⟨hi, value_congr rfl ?_⟩
      obtain ⟨hafter, hbefore⟩ := hread i hi
      exact hafter.2.trans hbefore.2.symm
  · cases h
    exact ⟨hs₁, hvalue⟩

theorem Tracks.refresh (htracks : Tracks o ds s) (hlive : s.finalized = false) {available : Bool}
    (h : s.refresh o false available = .ok s') : Tracks o ds s' ∧ Keeps o s s' := by
  obtain ⟨stager, progress, status, released, href, hreleased, rfl⟩ := refresh_eq h
  obtain ⟨hfold, -⟩ := refreshStaged_ok href
  obtain ⟨hholds, -, -, hshown, -, -⟩ := htracks.stager.refresh htracks.shown href
  cases hfold
  constructor
  · refine ⟨htracks.reading, htracks.ended, htracks.unpublished, hholds, hshown, htracks.folded,
      htracks.captured, fun _ i hi => ?_, htracks.closed⟩
    have hi : released[i]? = some true := hi
    rw [hreleased] at hi
    rcases releaseLogical_false hi with hi | ⟨c, e, hc, hlt, he, hlt'⟩
    · exact htracks.released hlive i hi
    · exact ⟨c, hc, Nat.lt_of_lt_of_le hlt hshown, htracks.captured hlive e he i c hc hlt'⟩
  · intro i hi
    refine ⟨?_, rfl⟩
    change released[i]? = some true
    rw [hreleased]
    exact releaseLogical_of_released hi

/-- The flush that ends the shot. -/
theorem Tracks.flush (htracks : Tracks o ds s) (hlive : s.finalized = false) (hsound : Sound o.readout)
    (hcompletion : o.readout.completion = (List.range t.numObservables).map t.completion)
    (hadm : Admissible t.toTemplateData (ds ++ es)) {available : Bool}
    (h : s.flush o es available = .ok s') : Tracks o (ds ++ es) s' ∧ Keeps o s s' := by
  simp only [LogicalState.flush, bind_eq_ok] at h
  obtain ⟨stager, hstage, h⟩ := h
  obtain ⟨hholds, hle, hbits⟩ := htracks.staged hlive hcompletion hadm hstage
  obtain ⟨stager', progress, status, released, href, hreleased, rfl⟩ := refresh_eq h
  obtain ⟨hholds', hfrontier, -, hshown, hhas, hbits'⟩ :=
    hholds.refresh (Nat.le_trans htracks.shown hle) href
  constructor
  · refine ⟨htracks.reading.flush, fun hp => ?_, fun hf => ?_, hholds', ?_, fun _ => ?_, fun hf => ?_,
      fun hf => ?_, fun _ hf => ?_⟩
    · have hp : (s.readout.flush o.readout).1.published = true := hp
      change (s.readout.flush o.readout).1.ended = true
      have hno := htracks.unpublished hlive
      unfold ReadoutState.flush at hp ⊢
      split at hp
      · rw [hno] at hp
        cases hp
      · rename_i hended
        rw [if_neg hended]
        simpa [hno] using hended
    · cases hf
    · rw [hfrontier]
      exact hshown
    · rcases hhas with hhas | ⟨hno, -⟩
      · exact hhas
      · cases hno
    · cases hf
    · cases hf
    · cases hf
  · intro i hi
    obtain ⟨hsame, hwhole⟩ := hbits i hi
    obtain ⟨c, hc, -, hi'⟩ := htracks.released hlive i hi
    -- a released output reads no tail, so the end of the shot leaves its correction
    -- a released output reads no tail, so the end of the shot leaves its correction
    have hcorrections : (s.readout.flush o.readout).1.corrections[i]? = s.corrections[i]? := by
      have hkept : (s.readout.flush o.readout).1.corrections[i]? = s.readout.read[i]? := by
        unfold ReadoutState.flush
        split
        · exact htracks.reading.value i hi'.1 (hsound.tail i c hc)
        · exact readTail_at s.readout (hsound.tail i c hc)
      exact hkept.trans hi'.2.symm
    refine ⟨?_, value_congr ((hbits' i hwhole).trans hsame) hcorrections⟩
    change released[i]? = some true
    rw [hreleased]
    exact releaseLogical_of_released hi

/-! ## A clear -/

/-- A consumed shot leaves nothing behind. -/
def Consumable (s : LogicalState) : Prop :=
  s.finalized = true → s.status ≠ .failed →
    (s.status = .complete ∧ s.progress.status = .complete) ∨
    (s.coverage = none ∧ s.stager.frontier = 0 ∧ s.stager.pending = [])

instance (s : LogicalState) : Decidable s.Consumable := inferInstanceAs (Decidable (_ → _ → _))

theorem holds_nil {stager : OutputStager} (hfrontier : stager.frontier = 0)
    (hpending : stager.pending = []) (hnodup : (stager.pending ++ stager.spare).Nodup)
    (hslots : ∀ e ∈ stager.pending ++ stager.spare, e < stager.intervals.length)
    (hwhole : ∀ i, stager.whole.getD i 0 = 0) : StagerHolds [] stager where
  frontier := .inl hfrontier
  pending e he := by
    rw [hpending] at he
    cases he
  nodup := hnodup
  slots := hslots
  whole i _ := hwhole i
  unset _ := hwhole

/-- What consuming leaves, where the shot was complete or nothing was committed. -/
theorem consumeStaged_empty (ended : Bool) (stager : OutputStager) (output : OutputProgress)
    (h : ended = true ∧ output.status = .complete ∨
      stager.frontier = 0 ∧ stager.pending = [] ∧ output.coverageEndRound = 0) :
    ∃ bits begin spare, consumeStaged ended stager output = ({ stager with
        bits := bits
        begin := begin
        frontier := 0
        pending := []
        spare := spare }, (consumeStaged ended stager output).2) ∧
      spare = stager.spare ++ stager.pending ∧ (consumeStaged ended stager output).2.coverageEndRound = 0 := by
  unfold consumeStaged
  dsimp only
  rcases h with ⟨rfl, hstatus⟩ | ⟨hfrontier, hpending, hshown⟩
  · rw [if_pos hstatus]
    exact ⟨_, _, _, rfl, rfl, rfl⟩
  · have hempty : ∀ s₁ : OutputStager, s₁ = { stager with
        bits := stager.bits.map fun _ => 0
        begin := stager.frontier } → s₁ = { s₁ with
          frontier := 0
          pending := []
          spare := stager.spare ++ stager.pending } := by
      rintro _ rfl
      rw [hpending, List.append_nil, hfrontier, ← hpending]
    have hcoverage : ∀ p : OutputProgress, p.coverageEndRound = 0 →
        (if ended then { p with coverageBeginRound := 0, coverageEndRound := 0 } else p).coverageEndRound
          = 0 := by
      intro p hp
      split
      · rfl
      · exact hp
    split
    · exact ⟨_, _, _, rfl, rfl, hcoverage _ hshown⟩
    · exact ⟨_, _, _, Prod.ext (hempty _ rfl) rfl, rfl, hcoverage _ hshown⟩

theorem Tracks.clear (htracks : Tracks o ds s) (hstatus : s.status ≠ .failed) (hrefuses : ¬ s.Refuses)
    (hconsumable : s.Consumable) : Tracks o [] (s.clear o) := by
  -- nothing is staged any more, or the shot was shown complete
  have hleft : s.stager.hasWhole = false ∧
      (s.status = .complete ∧ s.progress.status = .complete ∨
        s.stager.frontier = 0 ∧ s.stager.pending = [] ∧ s.coverage = none) := by
    cases hfinalized : s.finalized with
    | false =>
      have hopen : s.shotOpen = false := by
        cases hopen : s.shotOpen with
        | false => rfl
        | true => exact absurd ⟨hopen, hfinalized⟩ hrefuses
      obtain ⟨hfrontier, hpending, hhas, hcoverage⟩ := htracks.closed hopen hfinalized
      exact ⟨hhas, .inr ⟨hfrontier, hpending, hcoverage⟩⟩
    | true =>
      refine ⟨htracks.folded hfinalized, ?_⟩
      rcases hconsumable hfinalized hstatus with hdone | ⟨hcoverage, hfrontier, hpending⟩
      · exact .inl hdone
      · exact .inr ⟨hfrontier, hpending, hcoverage⟩
  obtain ⟨hhas, hleft⟩ := hleft
  obtain ⟨bits, begin, spare, heq, hspare, hshown⟩ :=
    consumeStaged_empty (decide (s.status = .complete)) s.stager s.progress (by
        rcases hleft with ⟨hcomplete, hdone⟩ | ⟨hfrontier, hpending, -⟩
        · exact .inl ⟨decide_eq_true hcomplete, hdone⟩
        · refine .inr ⟨hfrontier, hpending, ?_⟩
          have := htracks.shown
          omega)
  have hcoverage : (if decide (s.status = .complete) = true then none else s.coverage) = none := by
    rcases hleft with ⟨hcomplete, -⟩ | ⟨-, -, hnone⟩
    · rw [if_pos (decide_eq_true hcomplete)]
    · rw [hnone, ite_self]
  have hreadout : (s.readout.clear o.readout).published = false := by
    unfold ReadoutState.clear
    split
    · rfl
    · rename_i hended
      exact Bool.eq_false_iff.mpr fun hp => hended (htracks.ended hp)
  -- so the clear takes the bits away and leaves the state of a new shot
  unfold LogicalState.clear
  rw [if_neg hrefuses]
  dsimp only
  rw [if_neg hstatus, heq]
  refine ⟨htracks.reading.clear, fun hp => ?_, fun _ => hreadout, ?_, ?_, fun hf => ?_, fun _ e he => ?_,
    fun _ i hi => ?_, fun _ _ => ⟨rfl, rfl, hhas, hcoverage⟩⟩
  · rw [hreadout] at hp
    cases hp
  · apply holds_nil rfl rfl
    · change ([] ++ spare).Nodup
      rw [List.nil_append, hspare]
      exact (List.perm_append_comm).nodup_iff.mpr htracks.stager.nodup
    · intro e he
      apply htracks.stager.slots e
      have he : e ∈ [] ++ spare := he
      rw [List.nil_append, hspare] at he
      exact (List.perm_append_comm).mem_iff.mp he
    · exact htracks.stager.unset hhas
  · exact Nat.le_of_eq hshown
  · cases hf
  · have he : (if decide (s.status = .complete) = true then none else s.coverage) = some e := he
    rw [hcoverage] at he
    cases he
  · have hi : (s.released.map fun _ => false)[i]? = some true := hi
    rw [List.getElem?_map] at hi
    cases hreleased : s.released[i]? <;> simp [hreleased] at hi

theorem holds_fresh {stager : OutputStager} (h : StagerHolds ds stager) :
    StagerHolds [] { stager with
      frontier := 0
      begin := 0
      generation := 0
      bits := stager.bits.map fun _ => 0
      whole := stager.whole.map fun _ => 0
      hasWhole := false }.clearPending := by
  have hperm : (stager.spare ++ stager.pending).Perm (stager.pending ++ stager.spare) :=
    List.perm_append_comm
  apply holds_nil rfl rfl
  · exact hperm.nodup_iff.mpr h.nodup
  · intro e he
    exact h.slots e (hperm.mem_iff.mp he)
  · intro i
    change (stager.whole.map fun _ => (0 : UInt8)).getD i 0 = 0
    rw [List.getD_eq_getElem?_getD, List.getElem?_map]
    cases stager.whole[i]? <;> rfl

/-! ## A reset -/

theorem tracks_start (hreadout : ∃ r : ReadoutState, s.readout = r.reset o.readout) (hholds : StagerHolds [] s.stager)
    (hfrontier : s.stager.frontier = 0) (hpending : s.stager.pending = [])
    (hhas : s.stager.hasWhole = false) (hshown : s.progress.coverageEndRound = 0)
    (hcoverage : s.coverage = none) (hreleased : ∀ i : Nat, s.released[i]? ≠ some true) :
    Tracks o [] s where
  reading := by
    obtain ⟨r, hr⟩ := hreadout
    rw [hr]
    exact reading_reset o.readout r
  ended hp := by
    obtain ⟨r, hr⟩ := hreadout
    rw [hr] at hp
    cases hp
  unpublished _ := by
    obtain ⟨r, hr⟩ := hreadout
    rw [hr]
    rfl
  stager := hholds
  shown := hshown ▸ Nat.zero_le _
  folded _ := hhas
  captured _ e he := by
    rw [hcoverage] at he
    cases he
  released _ i hi := absurd hi (hreleased i)
  closed _ _ := ⟨hfrontier, hpending, hhas, hcoverage⟩

/-! ## A run -/

/-- A stager in order, and a graph that tracks its shot unless it has failed. -/
structure Good (o : LogicalOutput) (ds : List Delta) (s : LogicalState) : Prop where
  slots : ∃ es, StagerHolds es s.stager
  tracks : s.status ≠ .failed → Tracks o ds s

theorem good_initial (o : LogicalOutput) (capacity : Nat) : Good o [] (initial o capacity) := by
  have hholds : StagerHolds [] (initial o capacity).stager := by
    apply holds_nil rfl rfl
    · exact List.nodup_range
    · intro e he
      have he : e ∈ List.range capacity := he
      change e < (List.replicate capacity _).length
      rw [List.length_replicate]
      exact List.mem_range.mp he
    · intro i
      change (List.replicate _ (0 : UInt8)).getD i 0 = 0
      rw [List.getD_eq_getElem?_getD, List.getElem?_replicate]
      split <;> rfl
  refine ⟨⟨[], hholds⟩, fun _ => tracks_start ⟨.start o.readout, rfl⟩ hholds rfl rfl rfl rfl rfl fun i hi => ?_⟩
  have hi : (List.replicate o.readout.numObservables false)[i]? = some true := hi
  rw [List.getElem?_replicate] at hi
  split at hi <;> cases hi

def shotDeltas (s : LogicalState) (ds : List Delta) : GraphStep → List Delta
  | .enqueue _ _ es | .flush es _ => if s.status = .failed ∨ s.finalized then ds else ds ++ es
  | .refresh _ => ds
  | .clear => if s.Refuses then ds else []
  | .reset => []

/-- Calls whose deltas are, shot by shot, those of an admitted one. -/
@[grind =]
def Legal (t : TemplateData) (o : LogicalOutput) : List Delta → LogicalState → List GraphStep → Prop
  | _, _, [] => True
  | ds, s, call :: rest =>
    Admissible t (s.shotDeltas ds call) ∧ Legal t o (s.shotDeltas ds call) (s.step o call) rest

@[grind =] def Completed (o : LogicalOutput) : LogicalState → List GraphStep → Prop
  | _, [] => True
  | s, call :: rest => (call = .clear → s.Consumable) ∧ Completed o (s.step o call) rest

/-- Calls of one shot: none consumes it, fails or resets the graph. -/
@[grind =] def Uninterrupted (o : LogicalOutput) : LogicalState → List GraphStep → Prop
  | _, [] => True
  | s, call :: rest => (call = .clear → s.Refuses) ∧ call ≠ .reset ∧ (s.step o call).status ≠ .failed ∧
    Uninterrupted o (s.step o call) rest

theorem Good.guarded (h : Good o ds s) (ds' : List Delta) (call : Except Fault LogicalState)
    (hcall : ¬ (s.status = .failed ∨ s.finalized = true) → Tracks o ds s → s.finalized = false →
      ∀ s', call = .ok s' → Tracks o ds' s' ∧ Keeps o s s') :
    Good o (if s.status = .failed ∨ s.finalized then ds else ds') (s.guarded call) ∧
      ((s.guarded call).status ≠ .failed → Keeps o s (s.guarded call)) := by
  unfold LogicalState.guarded
  by_cases hdropped : s.status = .failed ∨ s.finalized = true
  · rw [if_pos hdropped, if_pos hdropped]
    exact ⟨h, fun _ => .refl o s⟩
  · rw [if_neg hdropped, if_neg hdropped]
    obtain ⟨hstatus, hfinalized⟩ := not_or.mp hdropped
    cases call with
    | error e => exact ⟨⟨h.slots, fun hno => absurd rfl hno⟩, fun hno => absurd rfl hno⟩
    | ok s' =>
      obtain ⟨htracks, hkeeps⟩ :=
        hcall hdropped (h.tracks hstatus) (Bool.eq_false_iff.mpr hfinalized) s' rfl
      exact ⟨⟨⟨_, htracks.stager⟩, fun _ => htracks⟩, fun _ => hkeeps⟩

/-- What one call leaves. -/
theorem Good.step (h : Good o ds s) (hsound : Sound o.readout)
    (hcompletion : o.readout.completion = (List.range t.numObservables).map t.completion)
    {call : GraphStep} (hadm : Admissible t.toTemplateData (s.shotDeltas ds call))
    (hconsumable : call = .clear → s.Consumable) :
    Good o (s.shotDeltas ds call) (s.step o call) ∧
      ((call = .clear → s.Refuses) → call ≠ .reset → (s.step o call).status ≠ .failed →
        Keeps o s (s.step o call)) := by
  cases call with
  | enqueue msyn type es =>
    have hguarded := h.guarded (ds ++ es) (s.enqueue o msyn type es)
      fun hlive htracks hfinalized s' hs' => by
        have hadm : Admissible t.toTemplateData (if s.status = .failed ∨ s.finalized then ds else ds ++ es) :=
          hadm
        rw [if_neg hlive] at hadm
        exact htracks.enqueue hfinalized hsound hcompletion hadm hs'
    by_cases hdropped : s.finalized = true ∧ s.status ≠ .failed
    · -- the record is dropped, but the shot counts as open
      have hstep : s.step o (.enqueue msyn type es) = { s with shotOpen := true } := if_pos hdropped
      have hdeltas : s.shotDeltas ds (.enqueue msyn type es) = ds := if_pos (.inr hdropped.1)
      have htracks := h.tracks hdropped.2
      rw [hstep, hdeltas]
      refine ⟨⟨h.slots, fun _ => ⟨htracks.reading, htracks.ended, htracks.unpublished, htracks.stager,
        htracks.shown, htracks.folded, htracks.captured, htracks.released, fun hopen => ?_⟩⟩,
        fun _ _ _ i hi => ⟨hi, rfl⟩⟩
      cases hopen
    · have hstep : s.step o (.enqueue msyn type es) = s.guarded (s.enqueue o msyn type es) :=
        if_neg hdropped
      rw [hstep]
      exact ⟨hguarded.1, fun _ _ => hguarded.2⟩
  | refresh available =>
    have hguarded := h.guarded ds (s.refresh o false available) fun _ htracks hfinalized s' hs' =>
      htracks.refresh hfinalized hs'
    rw [ite_self] at hguarded
    exact ⟨hguarded.1, fun _ _ => hguarded.2⟩
  | flush es available =>
    have hguarded := h.guarded (ds ++ es) (s.flush o es available)
      fun hlive htracks hfinalized s' hs' => by
        have hadm : Admissible t.toTemplateData (if s.status = .failed ∨ s.finalized then ds else ds ++ es) :=
          hadm
        rw [if_neg hlive] at hadm
        exact htracks.flush hfinalized hsound hcompletion hadm hs'
    exact ⟨hguarded.1, fun _ _ => hguarded.2⟩
  | clear =>
    change Good o (if s.Refuses then ds else []) (s.clear o) ∧ _
    -- a clear is refused while the shot is open, and then leaves the state as it is
    by_cases hrefuses : s.Refuses
    · have hstep : s.clear o = s := if_pos hrefuses
      rw [if_pos hrefuses, hstep]
      refine ⟨h, fun _ _ _ => ?_⟩
      change Keeps o s (s.clear o)
      rw [hstep]
      exact .refl o s
    · rw [if_neg hrefuses]
      refine ⟨?_, fun hno => absurd (hno rfl) hrefuses⟩
      by_cases hstatus : s.status = .failed
      · have hstager : (s.clear o).stager = s.stager ∧ (s.clear o).status = .failed := by
          unfold LogicalState.clear
          rw [if_neg hrefuses]
          dsimp only
          rw [if_pos hstatus]
          exact ⟨rfl, hstatus⟩
        exact ⟨hstager.1 ▸ h.slots, fun hno => absurd hstager.2 hno⟩
      · have htracks := (h.tracks hstatus).clear hstatus hrefuses (hconsumable rfl)
        exact ⟨⟨_, htracks.stager⟩, fun _ => htracks⟩
  -- a reset takes back all that was released: nothing is tracked from the shot before
  | reset =>
    refine ⟨?_, fun _ hno => absurd rfl hno⟩
    obtain ⟨es, hes⟩ := h.slots
    have hholds := holds_fresh hes
    refine ⟨⟨[], hholds⟩, fun _ => tracks_start ⟨_, rfl⟩ hholds rfl rfl rfl rfl rfl fun i hi => ?_⟩
    have hi : (s.released.map fun _ => false)[i]? = some true := hi
    rw [List.getElem?_map] at hi
    cases hreleased : s.released[i]? <;> simp [hreleased] at hi

theorem Good.run (h : Good o ds s) (hsound : Sound o.readout)
    (hcompletion : o.readout.completion = (List.range t.numObservables).map t.completion)
    {calls : List GraphStep} (hlegal : Legal t.toTemplateData o ds s calls)
    (hun : Uninterrupted o s calls) : Keeps o s (s.run o calls) := by
  induction calls generalizing ds s with
  | nil => exact .refl o s
  | cons call rest ih =>
    obtain ⟨hadm, hlegal⟩ := hlegal
    obtain ⟨hclear, hreset, hstatus, hun⟩ := hun
    obtain ⟨hgood, hkeeps⟩ := h.step hsound hcompletion hadm fun hcall hfinalized => by
      have := (hclear hcall).2
      rw [hfinalized] at this
      cases this
    exact (hkeeps hclear hreset hstatus).trans (ih hgood hlegal hun)

theorem Good.run_append (h : Good o ds s) (hsound : Sound o.readout)
    (hcompletion : o.readout.completion = (List.range t.numObservables).map t.completion)
    {pre post : List GraphStep} (hlegal : Legal t.toTemplateData o ds s (pre ++ post))
    (hcompleted : Completed o s pre) (hun : Uninterrupted o (s.run o pre) post) :
    Keeps o (s.run o pre) (s.run o (pre ++ post)) := by
  induction pre generalizing ds s with
  | nil => exact h.run hsound hcompletion hlegal hun
  | cons call rest ih =>
    obtain ⟨hadm, hlegal⟩ := hlegal
    obtain ⟨hconsumable, hcompleted⟩ := hcompleted
    exact ih (h.step hsound hcompletion hadm hconsumable).1 hlegal hcompleted hun

/-- A released observable stays released, and its value is the one it has when the shot is over. -/
theorem released_final (t : ExperimentTemplate) (o : LogicalOutput)
    (hbuild : buildReadout t.toTemplateData = .ok o.readout) (capacity : Nat)
    (pre post : List GraphStep)
    (hlegal : Legal t.toTemplateData o [] (initial o capacity) (pre ++ post))
    (hcompleted : Completed o (initial o capacity) pre)
    (hpost : Uninterrupted o ((initial o capacity).run o pre) post) (i : Nat)
    (hi : ((initial o capacity).run o pre).released[i]? = some true) :
    ((initial o capacity).run o (pre ++ post)).released[i]? = some true ∧
    (((initial o capacity).run o (pre ++ post)).value o)[i]? =
      (((initial o capacity).run o pre).value o)[i]? := by
  obtain ⟨hsound, hcompletion⟩ := buildReadout_sound hbuild
  exact (good_initial o capacity).run_append hsound hcompletion hlegal hcompleted hpost i hi

end LogicalState

/-! ## A readout in the first round -/

namespace ReadoutExample

open LogicalState

/-- A memory experiment whose first round is read: its fault flips the observable, no other one does. -/
def template : ExperimentTemplate where
  toTemplateData := (buildTemplate { memorySpec with
    phases := [⟨⟨10⟩, { memoryPhase with m2oSparse := [0, -1] }⟩,
      ⟨⟨11⟩, { memoryPhase with oSparse := [-1] }⟩, ⟨⟨12⟩, { memoryPhase with oSparse := [-1] }⟩]
    }).toOption.get (by decide +kernel)
  built := by decide +kernel

def output : LogicalOutput where
  name := "logical"
  readout := (buildReadout template.toTemplateData).toOption.get (by decide +kernel)
  parity := true

theorem built : buildReadout template.toTemplateData = .ok output.readout := by decide +kernel

theorem admissible {ds : List Delta} (hwhole : wholes ds = [])
    (hflips : ∀ d ∈ ds, d.load = [0] ∨ d.begin = 0 ∧ 0 < d.stop) :
    Admissible template.toTemplateData ds := by
  have hobservables : template.numObservables = 1 := by decide +kernel
  refine ⟨3, [⟨10⟩, ⟨11⟩, ⟨12⟩], by decide +kernel, by decide +kernel, fun d hd i hi hload => ?_, ?_⟩
  · have hi : i = 0 := by omega
    subst hi
    rcases hflips d hd with hzero | ⟨hbegin, hstop⟩
    · rw [hzero] at hload
      exact absurd rfl hload
    · exact ⟨0, ⟨10⟩, Nat.le_of_eq hbegin, hstop, rfl, by decide +kernel⟩
  · rw [hwhole]
    intro w hw
    cases hw

def first : List GraphStep := [.enqueue [1] .bulk [⟨0, 1, [1]⟩], .refresh true]

/-- The rest of the shot; `available` is whether the other outputs have something to show at its end. -/
def rest (available : Bool) : List GraphStep :=
  [.enqueue [0] .bulk [], .refresh available, .enqueue [0] .final [⟨1, 2, [0]⟩], .refresh available,
    .flush [⟨2, 3, [0]⟩] available]

def early : List GraphStep := [.enqueue [1] .bulk [], .refresh true]

def late : List GraphStep := [.enqueue [0] .bulk [⟨0, 1, [1]⟩], .refresh true]

example : ((initial output 2).run output first).released[0]? = some true := by decide +kernel

theorem legal_first : Legal template.toTemplateData output [] (initial output 2) (first ++ rest true) := by
  refine ⟨admissible ?_ ?_, admissible ?_ ?_, admissible ?_ ?_, admissible ?_ ?_, admissible ?_ ?_,
    admissible ?_ ?_, admissible ?_ ?_, trivial⟩ <;> decide +kernel

/-- The shot's first round is released with its window, and stays. -/
theorem released_first :
    ((initial output 2).run output (first ++ rest true)).released[0]? = some true ∧
    (((initial output 2).run output (first ++ rest true)).value output)[0]? =
      (((initial output 2).run output first).value output)[0]? := by
  refine released_final template output built 2 first (rest true) legal_first ?_ ?_ 0 (by decide +kernel)
  · exact ⟨fun h => (nomatch h), fun h => (nomatch h), trivial⟩
  · refine ⟨fun h => (nomatch h), fun h => (nomatch h), ?_, fun h => (nomatch h), fun h => (nomatch h), ?_,
      fun h => (nomatch h), fun h => (nomatch h), ?_, fun h => (nomatch h), fun h => (nomatch h), ?_,
      fun h => (nomatch h), fun h => (nomatch h), ?_, trivial⟩ <;> decide +kernel

def twice : List GraphStep := first ++ rest false ++ [.clear] ++ early

example : ((initial output 2).run output twice).released[0]? = some true := by decide +kernel

theorem legal_twice : Legal template.toTemplateData output [] (initial output 2) (twice ++ late) := by
  refine ⟨admissible ?_ ?_, admissible ?_ ?_, admissible ?_ ?_, admissible ?_ ?_, admissible ?_ ?_,
    admissible ?_ ?_, admissible ?_ ?_, admissible ?_ ?_, admissible ?_ ?_, admissible ?_ ?_,
    admissible ?_ ?_, admissible ?_ ?_, trivial⟩ <;> decide +kernel

theorem uninterrupted_late : Uninterrupted output ((initial output 2).run output twice) late := by
  refine ⟨fun h => (nomatch h), fun h => (nomatch h), ?_, fun h => (nomatch h), fun h => (nomatch h), ?_,
    trivial⟩ <;> decide +kernel

/-- A shot that ended while another output had nothing to show leaves its coverage to the next one: the
observable is released before its window has committed, and its value changes. -/
theorem not_released_final : ¬ ∀ (t : ExperimentTemplate) (o : LogicalOutput),
    buildReadout t.toTemplateData = .ok o.readout → ∀ (capacity : Nat) (pre post : List GraphStep),
    Legal t.toTemplateData o [] (initial o capacity) (pre ++ post) →
    Uninterrupted o ((initial o capacity).run o pre) post → ∀ i : Nat,
    ((initial o capacity).run o pre).released[i]? = some true →
    (((initial o capacity).run o (pre ++ post)).value o)[i]? =
      (((initial o capacity).run o pre).value o)[i]? := by
  intro h
  have hvalue := h template output built 2 twice late legal_twice uninterrupted_late 0 (by decide +kernel)
  revert hvalue
  decide +kernel

end ReadoutExample

end CudaqQec
