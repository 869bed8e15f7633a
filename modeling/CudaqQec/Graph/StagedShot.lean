import CudaqQec.Graph.Staging
import Mathlib.Data.List.Induction

/-!
# A staged shot

All deltas of a shot, staged in whatever order they come. `OutputStager.stageAll_spec`: none is refused,
and after each the frame is the XOR of what lies below the frontier. At the end of the shot the deltas of
the whole shot are folded; an interval that still waits behind a gap is noticed only there.
`losesNothing_iff`: so it is dropped, and not reported, when the shot has no such delta.
-/

namespace CudaqQec

open Frames Piece Checked Delta

namespace OutputStager

/-! ## A legal shot -/

/-- A stager as a shot begins. -/
structure AtStart (width : Nat) (s : OutputStager) : Prop where
  frontier : s.frontier = 0
  bits : s.bits = zeros width
  whole : s.whole = zeros width
  hasWhole : s.hasWhole = false
  pending : s.pending = []
  spare : s.spare.Perm (List.range s.capacity)
  size : s.intervals.length = s.capacity

/-- The deltas of a shot: those that commit rounds are not empty, pairwise disjoint, and never more of
them wait, with the one that comes, than there are slots. -/
structure Legal (capacity : Nat) (ds : List Delta) : Prop where
  nonempty : ∀ d ∈ commits ds, d.begin < d.stop
  disjoint : (commits ds).Pairwise Piece.Disjoint
  room : ∀ pre d post, ds = pre ++ d :: post → isWhole d = false →
    ∀ f, IsGreatest {f | GapFree (commits pre) f} f →
      ((commits pre).filter fun p => decide (f < p.stop)).length < capacity

/-- `stage_delta` for each delta. -/
def stageAll (name : String) (s : OutputStager) (ds : List Delta) : Except Fault OutputStager :=
  ds.foldlM (stageDelta name) s

/-- What a stager holds once `ds` were staged in a shot that it began as `s₀`. -/
structure Staged (width : Nat) (s₀ : OutputStager) (ds : List Delta) (s : OutputStager)
    (absorbed waiting : List Delta) : Prop where
  stages : s.Stages (commits ds) absorbed waiting
  bits : s.bits = xorAll (zeros width) (loads absorbed)
  whole : s.whole = xorAll (zeros width) (loads (wholes ds))
  hasWhole : s.hasWhole = !(wholes ds).isEmpty
  begin : s.begin = s₀.begin
  capacity : s.capacity = s₀.capacity
  generation : s₀.generation ≤ s.generation ∧ (s₀.generation < s.generation ↔ absorbed ≠ [])

variable {width : Nat} {s s₀ : OutputStager} {ds : List Delta} {d : Delta} {name : String}
  {absorbed waiting : List Delta}

/-! ## Staging delta after delta -/

theorem Legal.init {capacity : Nat} (h : Legal capacity (ds ++ [d])) : Legal capacity ds where
  nonempty p hp := h.nonempty p (by
    rw [commits_append]
    exact List.mem_append_left _ hp)
  disjoint := by
    have hd := h.disjoint
    rw [commits_append] at hd
    exact (List.pairwise_append.mp hd).1
  room pre e post he := h.room pre e (post ++ [d]) (by rw [he]; simp)

theorem Legal.take {capacity : Nat} {pre post : List Delta} (h : Legal capacity (pre ++ post)) :
    Legal capacity pre := by
  induction post using List.reverseRecOn with
  | nil => rwa [List.append_nil] at h
  | append_singleton post d ih =>
    rw [← List.append_assoc] at h
    exact ih h.init

theorem staged_nil (hstart : s₀.AtStart width) : Staged width s₀ [] s₀ [] [] where
  stages := by
    refine ⟨?_, ?_, ?_, hstart.size⟩
    · rw [hstart.frontier]
      exact .empty
    · rw [hstart.pending]
      rfl
    · rw [hstart.pending]
      exact hstart.spare
  bits := hstart.bits
  whole := hstart.whole
  hasWhole := hstart.hasWhole
  begin := rfl
  capacity := rfl
  generation := ⟨Nat.le_refl _, by simp⟩

/-- One more delta is staged. -/
theorem Staged.stageDelta (h : Staged width s₀ ds s absorbed waiting)
    (hlegal : Legal s₀.capacity (ds ++ [d])) :
    ∃ s' folded waiting', s.stageDelta name d = .ok s' ∧
      Staged width s₀ (ds ++ [d]) s' (absorbed ++ folded) waiting' := by
  cases hwhole : isWhole d with
  -- a delta of the whole shot waits for the end
  | true =>
    have hstop : d.stop = wholeShot := of_decide_eq_true hwhole
    have hi : commits (ds ++ [d]) = commits ds := by
      rw [commits_append]
      simp [commits, hwhole]
    have hw : wholes (ds ++ [d]) = wholes ds ++ [d] := by
      rw [wholes_append]
      simp [wholes, hwhole]
    refine ⟨{ s with whole := xorInto s.whole d.load, hasWhole := true }, [], waiting, ?_, ?_⟩
    · unfold OutputStager.stageDelta
      rw [if_pos hstop]
    · rw [List.append_nil]
      refine ⟨?_, h.bits, ?_, ?_, h.begin, h.capacity, h.generation⟩
      · rw [hi]
        exact ⟨h.stages.assembled, h.stages.view, h.stages.slots, h.stages.size⟩
      · rw [hw, loads_append, xorAll_append, ← h.whole]
        rfl
      · rw [hw]
        simp
  -- any other has a slot, and folds what now follows the frontier
  | false =>
    have hstop : d.stop ≠ wholeShot := of_decide_eq_false hwhole
    have hi : commits (ds ++ [d]) = commits ds ++ [d] := by
      rw [commits_append]
      simp [commits, hwhole]
    have hw : wholes (ds ++ [d]) = wholes ds := by
      rw [wholes_append]
      simp [wholes, hwhole]
    have hne : d.begin < d.stop := by
      apply hlegal.nonempty
      rw [hi]
      simp
    have hdis : ∀ p ∈ commits ds, Piece.Disjoint p d := by
      have hd := hlegal.disjoint
      rw [hi] at hd
      exact fun p hp => (List.pairwise_append.mp hd).2.2 p hp d (List.mem_singleton_self d)
    have hroom : waiting.length < s.capacity := by
      rw [h.capacity, ← h.stages.assembled.perm_filter_waiting.length_eq]
      exact hlegal.room ds d [] rfl hwhole _ h.stages.assembled.isGreatest
    obtain ⟨s', folded, waiting', hcall, hstages, hbits, hgen, hbegin, hwholes, hhas, hcap⟩ :=
      stageDelta_interval name h.stages hstop hne hdis hroom
    refine ⟨s', folded, waiting', hcall, ?_, ?_, ?_, ?_, ?_, ?_, ?_⟩
    · rw [hi]
      exact hstages
    · rw [hbits, h.bits, loads_append, xorAll_append]
    · rw [hwholes, h.whole, hw]
    · rw [hhas, h.hasWhole, hw]
    · rw [hbegin, h.begin]
    · rw [hcap, h.capacity]
    · obtain ⟨hle, hiff⟩ := h.generation
      rw [hgen]
      by_cases hf : folded = []
      · rw [if_pos hf, hf, List.append_nil]
        exact ⟨hle, hiff⟩
      · rw [if_neg hf]
        refine ⟨by omega, fun _ => ?_, fun _ => by omega⟩
        simp [hf]

theorem stageAll_spec (name : String) (hstart : s₀.AtStart width) (hlegal : Legal s₀.capacity ds) :
    ∃ s absorbed waiting, stageAll name s₀ ds = .ok s ∧ Staged width s₀ ds s absorbed waiting := by
  induction ds using List.reverseRecOn with
  | nil => exact ⟨s₀, [], [], rfl, staged_nil hstart⟩
  | append_singleton ds d ih =>
    obtain ⟨s, absorbed, waiting, hrun, hstaged⟩ := ih hlegal.init
    obtain ⟨s', folded, waiting', hcall, hstaged'⟩ := hstaged.stageDelta hlegal
    refine ⟨s', absorbed ++ folded, waiting', ?_, hstaged'⟩
    rw [stageAll, List.foldlM_append, ← stageAll, hrun, ok_bind, List.foldlM_cons, hcall]
    rfl

/-! ## The end of the shot -/

/-- Something was folded exactly when an interval begins the shot. -/
theorem Staged.absorbed_ne_nil (h : Staged width s₀ ds s absorbed waiting) :
    absorbed ≠ [] ↔ ∃ d ∈ commits ds, d.begin = 0 := by
  have hperm := h.stages.assembled.perm
  constructor
  · intro hne
    cases habs : absorbed with
    | nil => exact absurd habs hne
    | cons d rest =>
      have hrun := h.stages.assembled.run
      rw [habs] at hrun hperm
      exact ⟨d, hperm.mem_iff.mpr (by simp), hrun.1⟩
  · rintro ⟨d, hd, hbegin⟩ hnil
    rw [hnil, List.nil_append] at hperm
    have := h.stages.assembled.above d (hperm.mem_iff.mp hd)
    omega

theorem Staged.xorAll_loads (h : Staged width s₀ ds s absorbed waiting) :
    xorAll (zeros width) (loads ds) =
      xorAll (xorAll s.bits (loads waiting)) (loads (wholes ds)) := by
  have hperm : (absorbed ++ waiting ++ wholes ds).Perm ds :=
    (h.stages.assembled.perm.symm.append_right _).trans (perm_commits_wholes ds)
  have hmap : (loads (absorbed ++ waiting ++ wholes ds)).Perm (loads ds) := hperm.map Piece.load
  rw [← xorAll_perm _ hmap, h.bits, ← xorAll_append, ← xorAll_append]
  simp [loads]

theorem Staged.length_bits (h : Staged width s₀ ds s absorbed waiting) : s.bits.length = width := by
  rw [h.bits, length_xorAll, length_zeros]

/-- No interval is left behind a gap. -/
def NoneWaits (ds : List Delta) : Prop :=
  ∀ f, IsGreatest {f | GapFree (commits ds) f} f → ∀ d ∈ commits ds, d.stop ≤ f

theorem Staged.noneWaits_iff (h : Staged width s₀ ds s absorbed waiting) :
    NoneWaits ds ↔ s.pending = [] := by
  have hperm := h.stages.assembled.perm_filter_waiting
  have hgreatest := h.stages.assembled.isGreatest
  have hview : waiting = [] ↔ s.pending = [] := by
    rw [← h.stages.view, List.map_eq_nil_iff]
  rw [← hview]
  constructor
  · intro hnone
    rw [← List.perm_nil, ← hperm.congr_left, List.perm_nil, List.filter_eq_nil_iff]
    intro d hd
    simpa using hnone _ hgreatest d hd
  · intro hnil f hf d hd
    rw [hf.unique hgreatest]
    rw [hnil, List.perm_nil, List.filter_eq_nil_iff] at hperm
    simpa using hperm d hd

end OutputStager

open OutputStager

/-! ## Losing nothing -/

/-- The end of the shot marks the output complete: it was published before, or a delta begins the shot;
the logical output once every observable is released. -/
def Completes (logical : Option LogicalRelease) (s₀ : OutputStager) (output : OutputProgress)
    (ds : List Delta) : Prop :=
  match logical with
  | none => 0 < output.generation ∨ 0 < s₀.generation ∨ ∃ d ∈ commits ds, d.begin = 0
  | some l => l.released = l.size

/-- No delta of a shot is lost: staging refuses none and keeps the frame of what lies below the frontier,
and a complete output is the XOR of all of them, with no interval left waiting. -/
def LosesNothing (name : String) (width : Nat) (logical : Option LogicalRelease) (s₀ : OutputStager)
    (output : OutputProgress) (ds : List Delta) : Prop :=
  (∀ pre post, ds = pre ++ post → ∃ s, stageAll name s₀ pre = .ok s ∧
    IsGreatest {f | GapFree (commits pre) f} s.frontier ∧
    s.bits = xorAll (zeros width)
      (loads ((commits pre).filter fun p => decide (p.stop ≤ s.frontier)))) ∧
  ∀ s s' output', stageAll name s₀ ds = .ok s →
    refreshStaged true logical s output = .ok (s', output') → output'.status = .complete →
    s'.pending = [] ∧ s'.bits = xorAll (zeros width) (loads ds)

variable {width : Nat} {s s' s₀ : OutputStager} {ds : List Delta} {name : String}
  {absorbed waiting : List Delta} {logical : Option LogicalRelease} {output output' : OutputProgress}

theorem refreshStaged_stager (h : refreshStaged true logical s output = .ok (s', output')) :
    s.foldWholeShot = .ok s' := by
  unfold refreshStaged at h
  rw [if_pos rfl] at h
  obtain ⟨s₁, hfold, h⟩ := bind_eq_ok.mp h
  cases h
  exact hfold

/-! ## The refresh at the end -/

/-- Without a delta of the whole shot, the end of the shot completes the output as it is. -/
theorem refreshStaged_of_no_whole (logical : Option LogicalRelease) (h : s.hasWhole = false)
    (hout : output.status ≠ .complete) :
    ∃ output', refreshStaged true logical s output = .ok (s, output') ∧
      (output'.status = .complete ↔ match logical with
        | none => 0 < output.generation ∨ output.generation < s.generation
        | some l => l.released = l.size) := by
  have hfold : s.foldWholeShot = .ok s := by
    unfold foldWholeShot
    rw [h]
    rfl
  unfold refreshStaged
  rw [if_pos rfl, hfold]
  refine ⟨_, rfl, ?_⟩
  cases logical with
  | none =>
    dsimp only
    by_cases hgen : output.generation < s.generation
    · have hpos : 0 < s.generation := by omega
      simp [hgen, hpos]
    · by_cases hpos : 0 < output.generation
      · simp [hgen, hpos]
      · simp [hgen, hpos, hout]
  | some l =>
    dsimp only
    by_cases hall : l.released = l.size
    · simp [hall]
    · by_cases hsome : l.released = 0 <;> simp [hall, hsome]

/-- With a delta of the whole shot, the end of the shot either throws or folds everything. -/
theorem folded_of_whole (h : Staged width s₀ ds s absorbed waiting) (hwhole : wholes ds ≠ [])
    (hfold : s.foldWholeShot = .ok s') :
    s'.pending = [] ∧ s'.bits = xorAll (zeros width) (loads ds) := by
  have hhas : s.hasWhole = true := by
    rw [h.hasWhole]
    simpa using hwhole
  unfold foldWholeShot at hfold
  rw [hhas] at hfold
  cases hpending : s.pending with
  | cons next rest =>
    rw [hpending] at hfold
    cases hfold
  | nil =>
    rw [hpending] at hfold
    cases hfold
    have hwaiting : waiting = [] := by
      rw [← h.stages.view, hpending]
      rfl
    refine ⟨rfl, ?_⟩
    rw [h.xorAll_loads, hwaiting, h.whole, ← h.length_bits]
    exact xorInto_xorAll _ _

/-- Without one, the frame is whole where nothing waits. -/
theorem bits_of_no_whole (h : Staged width s₀ ds s absorbed waiting) (hwhole : wholes ds = [])
    (hpending : s.pending = []) : s.bits = xorAll (zeros width) (loads ds) := by
  have hwaiting : waiting = [] := by
    rw [← h.stages.view, hpending]
    rfl
  rw [h.xorAll_loads, hwaiting, hwhole]
  rfl

theorem completes_iff (logical : Option LogicalRelease) (output : OutputProgress)
    (h : Staged width s₀ ds s absorbed waiting) :
    Completes logical s₀ output ds ↔ match logical with
      | none => 0 < output.generation ∨ output.generation < s.generation
      | some l => l.released = l.size := by
  unfold Completes
  cases logical with
  | some l => exact Iff.rfl
  | none =>
    dsimp only
    rw [← h.absorbed_ne_nil]
    obtain ⟨hle, hiff⟩ := h.generation
    constructor
    · rintro (hg | hg | hne)
      · exact .inl hg
      · by_cases hpos : 0 < output.generation
        · exact .inl hpos
        · exact .inr (by omega)
      · have := hiff.mpr hne
        by_cases hpos : 0 < output.generation
        · exact .inl hpos
        · exact .inr (by omega)
    · rintro (hg | hg)
      · exact .inl hg
      · by_cases hzero : 0 < s₀.generation
        · exact .inr (.inl hzero)
        · exact .inr (.inr (hiff.mp (by omega)))

/-- A shot loses no delta exactly when it has one of the whole shot, or is not completed, or leaves no
interval behind a gap. -/
theorem losesNothing_iff (name : String) (logical : Option LogicalRelease) (hstart : s₀.AtStart width)
    (hlegal : Legal s₀.capacity ds) (hout : output.status ≠ .complete) :
    LosesNothing name width logical s₀ output ds ↔
      wholes ds ≠ [] ∨ ¬ Completes logical s₀ output ds ∨ NoneWaits ds := by
  obtain ⟨s, absorbed, waiting, hrun, hstaged⟩ := stageAll_spec name hstart hlegal
  have hcomplete := completes_iff logical output hstaged
  have hhas : wholes ds = [] → s.hasWhole = false := by
    intro hwhole
    rw [hstaged.hasWhole, hwhole]
    rfl
  constructor
  -- an interval that still waits when the shot completes is lost
  · rintro ⟨-, hfinal⟩
    by_cases hwhole : wholes ds = []
    · by_cases hdone : Completes logical s₀ output ds
      · right
        right
        obtain ⟨output', hrefresh, hstatus⟩ := refreshStaged_of_no_whole logical (hhas hwhole) hout
        exact hstaged.noneWaits_iff.mpr
          (hfinal s s output' hrun hrefresh (hstatus.mpr (hcomplete.mp hdone))).1
      · exact .inr (.inl hdone)
    · exact .inl hwhole
  -- otherwise all that was staged has been folded when it completes
  · intro hcond
    constructor
    · rintro pre post rfl
      obtain ⟨t, a, w, hr, ht⟩ := stageAll_spec name hstart hlegal.take
      refine ⟨t, hr, ht.stages.assembled.isGreatest, ?_⟩
      rw [ht.bits, loads, loads]
      exact (xorAll_perm _ (ht.stages.assembled.perm_filter.map Piece.load)).symm
    · intro t t' output' ht hrefresh hstatus
      rw [hrun] at ht
      cases ht
      by_cases hwhole : wholes ds = []
      · obtain ⟨output₁, hrefresh₁, hstatus₁⟩ :=
          refreshStaged_of_no_whole logical (hhas hwhole) hout
        rw [hrefresh₁] at hrefresh
        cases hrefresh
        have hdone := hcomplete.mpr (hstatus₁.mp hstatus)
        have hpending : s.pending = [] := by
          rcases hcond with hne | hnot | hnone
          · exact absurd hwhole hne
          · exact absurd hdone hnot
          · exact hstaged.noneWaits_iff.mp hnone
        exact ⟨hpending, bits_of_no_whole hstaged hwhole hpending⟩
      · exact folded_of_whole hstaged hwhole (refreshStaged_stager hrefresh)

/-! ## Two windows and a gap -/

namespace StagedExample

/-- A stager of one bit with three slots. -/
def stager : OutputStager where
  frontier := 0
  begin := 0
  generation := 0
  bits := [0]
  whole := [0]
  hasWhole := false
  intervals := List.replicate 3 ⟨0, 0, []⟩
  pending := []
  spare := [0, 1, 2]
  capacity := 3

def fresh : OutputProgress := ⟨0, 0, 0, .pending⟩

theorem stager_atStart : stager.AtStart 1 :=
  ⟨rfl, rfl, rfl, rfl, rfl, by decide, rfl⟩

theorem legal_of_length {capacity : Nat} {ds : List Delta} (hne : ∀ d ∈ commits ds, d.begin < d.stop)
    (hdis : (commits ds).Pairwise Piece.Disjoint) (hlen : ds.length ≤ capacity) :
    Legal capacity ds :=
  ⟨hne, hdis, fun _ _ _ he _ _ _ => length_filter_filter_lt he hlen _ _⟩

def outOfOrder : List Delta := [⟨1, 2, [1]⟩, ⟨0, wholeShot, [1]⟩, ⟨0, 1, [1]⟩]

def gap : List Delta := [⟨0, 1, [1]⟩, ⟨2, 3, [1]⟩]

theorem losesNothing_outOfOrder :
    LosesNothing "corrections" 1 none stager fresh outOfOrder := by
  have hcommits : commits outOfOrder = [⟨1, 2, [1]⟩, ⟨0, 1, [1]⟩] := rfl
  have hlegal : Legal stager.capacity outOfOrder := by
    apply legal_of_length
    · rw [hcommits]
      simp
    · rw [hcommits]
      simp [Piece.Disjoint]
    · exact Nat.le_refl 3
  apply (losesNothing_iff "corrections" none stager_atStart hlegal (by decide)).mpr
  left
  have hwholes : wholes outOfOrder = [⟨0, wholeShot, [1]⟩] := rfl
  rw [hwholes]
  simp

/-- The shot completes with the delta behind the gap left out. -/
theorem not_losesNothing_gap : stager.AtStart 1 ∧ Legal stager.capacity gap ∧
    ¬ LosesNothing "corrections" 1 none stager fresh gap := by
  have hcommits : commits gap = [⟨0, 1, [1]⟩, ⟨2, 3, [1]⟩] := rfl
  refine ⟨stager_atStart, ?_, ?_⟩
  · apply legal_of_length
    · rw [hcommits]
      simp
    · rw [hcommits]
      simp [Piece.Disjoint]
    · decide
  rintro ⟨-, hfinal⟩
  have hbits := (hfinal _ _ _ rfl rfl rfl).2
  exact absurd hbits (by decide)

end StagedExample

end CudaqQec
