import CudaqQec.ExtendedDem.Spec

/-!
# Experiment templates

`experiment_template`: a phase spec as a shot of any length. The constructor splits the phases into
prefix, repeating and suffix phases once and builds each phase's chunk; every query about a round is
then answered in closed form. A template that does not repeat is all prefix.

Offsets are sums over rounds, computed as `prefix + (min(r, tail) - prefix) * bulk + suffix`. They
are integers here. The code's `size_t` holds them modulo `2 ^ 64`, that is the same number where it is
neither negative nor `2 ^ 64` and more (`asSize`).

* `TemplateData.Shape`: how many rounds the prefix and the suffix of a built template have.
* `sumBefore_succ`: with room for prefix and suffix, a round adds its own phase's size.
-/

namespace CudaqQec

open Checked ExtendedDem

/-! ## The chunks of a phase -/

/-- `phase_chunks`: a phase's chunk inside the shot and at its end, with its sizes. -/
structure PhaseChunks where
  inner : ExtendedDem
  last : ExtendedDem
  rows : Nat
  faults : Nat
  measurements : Option Nat
  deriving DecidableEq

def PhaseChunks.empty : PhaseChunks := ⟨.empty, .empty, 0, 0, none⟩

def PhaseChunks.width (p : PhaseChunks) : Nat := p.measurements.getD 0

/-- `reaches_next_round`: whether some fault of the chunk touches its outgoing band. -/
def reachesNextRound (c : ExtendedDem) (fromSeam : SeamId) : Bool :=
  match c.findSeam fromSeam with
  | none => false
  | some band => c.H.toCsc.groups.any fun col => col.any band.covers

/-- One phase's chunks. Zone edges must fall on chunk edges, so a chunk is one round. -/
def buildPhase (spec : DemChunksSpec) (e : PhaseSpecEntry) : Except Error PhaseChunks := do
  let context := "dem_chunks." ++ e.id.name
  let inner ← demChunkFromSpec e.spec [spec.seam.toSeam, spec.seam.fromSeam] context
  let last ← demChunkFromSpec e.spec [spec.seam.toSeam] context
  throwIf (inner.numInteriorRows ≠ 0)
    (.invalidArgument ("experiment_template: phase '" ++ e.id.name ++
      "' spans more than one round"))
  let rows ← spec.detectorsOf e.spec context
  return {
    inner := inner
    last := last
    rows := rows
    faults := inner.numFaults
    -- Without `D` rows a round has one measurement for each detector, whatever count is set.
    measurements := if spec.hasDSparse then spec.measurementCount e.spec else some rows }

/-- `check_uniform_round`: without `D` rows every round has as many detectors as the first phase's.
Returns the first phase and its rows. -/
def checkUniformRound (spec : DemChunksSpec) (id : PhaseId) (p : PhaseChunks)
    (uniform : Option (PhaseId × Nat)) : Except Error (Option (PhaseId × Nat)) := do
  let next := p.inner.seamRowsOrZero spec.seam.fromSeam
  let first := uniform.getD (id, p.rows)
  throwIf (p.rows ≠ first.2) (fail ("phase '" ++ first.1.name ++ "' has " ++ toString first.2))
  throwIf (next ≠ 0 ∧ next ≠ p.rows) (fail ("its outgoing seam reaches " ++ toString next))
  return some first
where
  fail (what : String) : Error :=
    .invalidArgument ("experiment_template: without D_sparse rows every round needs the " ++
      "same detectors, so a round's measurements line up with the last round's; phase '" ++
      id.name ++ "' has " ++ toString p.rows ++ " detectors a round, but " ++ what)

/-- Rounds that carry `D` rows may differ in detectors. -/
def nextUniform (spec : DemChunksSpec) (id : PhaseId) (p : PhaseChunks)
    (uniform : Option (PhaseId × Nat)) : Except Error (Option (PhaseId × Nat)) :=
  if spec.hasDSparse then .ok uniform else checkUniformRound spec id p uniform

structure PhaseTable where
  phases : List (PhaseId × PhaseChunks)
  maxSpan : Nat
  uniform : Option (PhaseId × Nat)

def addPhase (spec : DemChunksSpec) (acc : PhaseTable) (e : PhaseSpecEntry) :
    Except Error PhaseTable := do
  let p ← buildPhase spec e
  let uniform ← nextUniform spec e.id p acc.uniform
  return {
    phases := acc.phases ++ [(e.id, p)]
    maxSpan := if reachesNextRound p.inner spec.seam.fromSeam then 1 else acc.maxSpan
    uniform := uniform }

/-! ## Construction -/

/-- The rounds of a shot by kind: where the phases lie, and how short a shot may be. -/
structure ShotLayout where
  prefixPhases : List PhaseId
  suffixPhases : List PhaseId
  bulk : PhaseId
  last : PhaseId
  minRounds : Nat

def shotLayout (spec : DemChunksSpec) : Except Error ShotLayout :=
  if spec.hasRepeatingPhase then do
    let l ← spec.layout
    return ⟨l.before, l.after, l.repeating, l.after.getLastD l.repeating, max 2 spec.minimumRounds⟩
  else do
    let seq ← spec.phaseSequence
    return ⟨seq, [], ⟨0⟩, seq.getLastD ⟨0⟩, seq.length⟩

/-- The data of an `experiment_template`. -/
structure TemplateData where
  spec : DemChunksSpec
  repeats : Bool
  prefixPhases : List PhaseId
  suffixPhases : List PhaseId
  bulk : PhaseId
  last : PhaseId
  minRounds : Nat
  maxSpan : Nat
  numObservables : Nat
  phases : List (PhaseId × PhaseChunks)
  deriving DecidableEq

namespace TemplateData

variable (t : TemplateData)

/-- `phases_.at(id)`. Every phase of a shot is named by a connection, so it has a spec and with it
its chunks; `validate` sees to that. -/
def phaseChunks (id : PhaseId) : PhaseChunks :=
  ((t.phases.find? fun p => p.1 = id).map (·.2)).getD .empty

/-- `spec().get_phase(id)`, for a phase of a shot. -/
def phaseSpec (id : PhaseId) : DemChunkSpec :=
  ((t.spec.phases.find? fun e => e.id = id).map (·.spec)).getD {}

variable {t} in
theorem phaseSpec_eq {id : PhaseId} {s : DemChunkSpec} (h : t.spec.getPhase id = .ok s) :
    t.phaseSpec id = s := by
  unfold DemChunksSpec.getPhase at h
  split at h
  · next e he =>
    rw [phaseSpec, he]
    exact Except.ok.inj h
  · cases h

/-- A round that arrives before FINAL is read at the bulk width, so only the last phase of the
suffix may differ from it. -/
def checkSuffixWidths : Except Error Unit :=
  forM (List.range (t.suffixPhases.length - 1)) fun i =>
    throwIf (t.repeats ∧ (t.phaseChunks (t.suffixPhases.getD i ⟨0⟩)).measurements ≠
        (t.phaseChunks t.bulk).measurements)
      (.invalidArgument ("experiment_template: suffix phase '" ++
        (t.suffixPhases.getD i ⟨0⟩).name ++
        "' precedes FINAL, so it needs the bulk measurement width"))

end TemplateData

/-- The constructor of `experiment_template`. -/
def buildTemplate (spec : DemChunksSpec) : Except Error TemplateData := do
  spec.validate
  let l ← shotLayout spec
  throwIf (spec.hasRepeatingPhase ∧ spec.numRounds.any (· < l.minRounds))
    (.invalidArgument ("experiment_template: num_rounds " ++ toString (spec.numRounds.getD 0) ++
      " is below the " ++ toString l.minRounds ++ " rounds the phase chain needs"))
  let numObservables ← spec.numObservables
  let onChain := fun id => id ∈ l.prefixPhases ∨ id ∈ l.suffixPhases ∨
    spec.hasRepeatingPhase ∧ id = l.bulk
  -- A phase no connection reaches is in no shot, so it is not built.
  let table ← (spec.phases.filter fun e => onChain e.id).foldlM (addPhase spec) ⟨[], 0, none⟩
  let t : TemplateData :=
    { spec := spec
      repeats := spec.hasRepeatingPhase
      prefixPhases := l.prefixPhases
      suffixPhases := l.suffixPhases
      bulk := l.bulk
      last := l.last
      minRounds := l.minRounds
      maxSpan := table.maxSpan
      numObservables := numObservables
      phases := table.phases }
  t.checkSuffixWidths
  return t

structure ExperimentTemplate extends TemplateData where
  built : buildTemplate spec = .ok toTemplateData
  deriving DecidableEq

/-! ## Queries -/

namespace TemplateData

variable (t : TemplateData)

def prefixRounds : Nat := t.prefixPhases.length

def suffixRounds : Nat := t.suffixPhases.length

def Admits (R : Nat) : Prop := t.minRounds ≤ R ∧ (t.repeats = false → R = t.minRounds)

instance (R : Nat) : Decidable (t.Admits R) := inferInstanceAs (Decidable (_ ∧ _))

/-- `check_round`: rejects shot lengths the spec does not admit, and rounds past `last`. -/
def checkRound (r last R : Nat) : Except Error Unit := do
  throwIf (R < t.minRounds)
    (.invalidArgument ("experiment_template: a " ++ toString R ++
      "-round shot is shorter than the minimum of " ++ toString t.minRounds))
  throwIf (t.repeats = false ∧ R ≠ t.minRounds)
    (.invalidArgument ("experiment_template: a spec without a repeating phase admits only " ++
      toString t.minRounds ++ "-round shots, not " ++ toString R))
  throwIf (r > last)
    (.invalidArgument ("experiment_template: round " ++ toString r ++ " is past " ++
      toString last ++ " in a " ++ toString R ++ "-round shot"))

theorem checkRound_eq_ok {r last R : Nat} {u : Unit} :
    t.checkRound r last R = .ok u ↔ t.Admits R ∧ r ≤ last := by
  simp only [checkRound, bind_eq_ok, throwIf_eq_ok, Admits]
  constructor
  · rintro ⟨_, h1, _, h2, h3⟩
    refine ⟨⟨by omega, fun hr => ?_⟩, by omega⟩
    by_contra hne
    exact h2 ⟨hr, hne⟩
  · rintro ⟨⟨h1, h2⟩, h3⟩
    exact ⟨(), by omega, (), fun h => h.2 (h2 h.1), by omega⟩

/-- The phase of round `r` of an `R`-round shot: prefix rounds count from the start, suffix rounds
from the end. Queries from here on are for rounds of admitted shots, where `check_round` passes. -/
def phase (r R : Nat) : PhaseId :=
  if r < t.prefixRounds then t.prefixPhases.getD r ⟨0⟩
  else if r < R - t.suffixRounds then t.bulk
  else t.suffixPhases.getD (r - (R - t.suffixRounds)) ⟨0⟩

/-- The chunk of round `r`: the shot's last one has no next round, so it carries no `from_seam`. -/
def chunk (r R : Nat) : ExtendedDem :=
  if r + 1 < R then (t.phaseChunks (t.phase r R)).inner else (t.phaseChunks (t.phase r R)).last

def sumOf (size : PhaseChunks → Nat) (ids : List PhaseId) : Nat :=
  (ids.map fun id => size (t.phaseChunks id)).sum

/-- `sum_before`: a size summed over the rounds before `r`. -/
def sumBefore (size : PhaseChunks → Nat) (r R : Nat) : Int :=
  t.sumOf size (t.prefixPhases.take r) +
    (if t.repeats ∧ t.prefixRounds < r then
      ((min r (R - t.suffixRounds) : Nat) - (t.prefixRounds : Int)) * size (t.phaseChunks t.bulk)
    else 0) +
    t.sumOf size (t.suffixPhases.take (r - (R - t.suffixRounds)))

def rowOffset (r R : Nat) : Int := t.sumBefore PhaseChunks.rows r R

def columnOffset (r R : Nat) : Int := t.sumBefore PhaseChunks.faults r R

/-- Measurements before round `r`. Every phase has a count: `validate` asks for one where the
phases carry `D` rows, and elsewhere the rows are the count. -/
def measurementOffset (r R : Nat) : Int := t.sumBefore PhaseChunks.width r R

/-- `readout`: the readout map of the last phase. -/
def readout : List Int := (t.phaseSpec t.last).m2oSparse

/-! ## The rounds of a shot -/

/-- How the prefix and the suffix of a built template fit into its shortest shot. -/
structure Shape : Prop where
  two_le : 2 ≤ t.minRounds
  min_le : t.minRounds ≤ t.prefixRounds + t.suffixRounds + 2
  fixed : t.repeats = false → t.suffixPhases = [] ∧ t.prefixRounds = t.minRounds
  /-- The repeating phase is on the chain, or the chain lies whole on both sides of it. -/
  split : t.repeats = true → t.prefixRounds + 1 + t.suffixRounds ≤ t.minRounds ∨
    t.prefixRounds = t.minRounds ∧ t.suffixPhases = t.prefixPhases

variable {t}

theorem Shape.suffixRounds_le (h : t.Shape) : t.suffixRounds ≤ t.minRounds := by
  cases hr : t.repeats with
  | false =>
    have := (h.fixed hr).1
    simp [suffixRounds, this]
  | true =>
    rcases h.split hr with h | h
    · omega
    · rw [suffixRounds, h.2]
      exact h.1.le

def sizeAt (t : TemplateData) (size : PhaseChunks → Nat) (r R : Nat) : Nat :=
  size (t.phaseChunks (t.phase r R))

theorem sumOf_take_succ (size : PhaseChunks → Nat) {ids : List PhaseId} {r : Nat}
    (h : r < ids.length) :
    t.sumOf size (ids.take (r + 1)) =
      t.sumOf size (ids.take r) + size (t.phaseChunks (ids.getD r ⟨0⟩)) := by
  rw [sumOf, List.take_add_one, List.getElem?_eq_getElem h, List.getD_eq_getElem?_getD,
    List.getElem?_eq_getElem h, List.map_append, List.sum_append]
  rfl

theorem take_eq_of_length_le {ids : List PhaseId} {m n : Nat} (hm : ids.length ≤ m)
    (hn : ids.length ≤ n) : ids.take m = ids.take n := by
  rw [List.take_of_length_le hm, List.take_of_length_le hn]

@[simp] theorem sumBefore_zero (size : PhaseChunks → Nat) (R : Nat) :
    t.sumBefore size 0 R = 0 := by
  simp [sumBefore, sumOf]

/-- In a shot with room for prefix and suffix, each round adds the size of its own phase. -/
theorem sumBefore_succ (size : PhaseChunks → Nat) {r R : Nat}
    (hfit : t.prefixRounds + t.suffixRounds ≤ R) (hfix : t.repeats = false → R = t.prefixRounds)
    (hr : r < R) :
    t.sumBefore size (r + 1) R = t.sumBefore size r R + t.sizeAt size r R := by
  have hp : t.prefixRounds = t.prefixPhases.length := rfl
  have hs : t.suffixRounds = t.suffixPhases.length := rfl
  unfold sumBefore sizeAt phase
  by_cases h1 : r < t.prefixRounds
  · -- A prefix round: neither the bulk nor the suffix term is there yet.
    have e1 : r + 1 - (R - t.suffixRounds) = 0 := by omega
    have e2 : r - (R - t.suffixRounds) = 0 := by omega
    rw [if_pos h1, sumOf_take_succ size (hp ▸ h1), if_neg (by omega), if_neg (by omega), e1, e2]
    push_cast
    ring
  -- Behind the prefix its sum is whole, and the bulk term counts.
  have hpre : t.prefixPhases.take (r + 1) = t.prefixPhases.take r :=
    take_eq_of_length_le (by omega) (by omega)
  have hrep : t.repeats = true := by
    by_contra hn
    have := hfix (by simpa using hn)
    omega
  rw [if_neg h1, hpre, if_pos ⟨hrep, by omega⟩]
  -- A bulk round adds to the bulk term, a suffix round to the suffix term.
  by_cases h2 : r < R - t.suffixRounds
  · have e1 : r + 1 - (R - t.suffixRounds) = 0 := by omega
    have e2 : r - (R - t.suffixRounds) = 0 := by omega
    have e3 : min (r + 1) (R - t.suffixRounds) = r + 1 := by omega
    have e4 : min r (R - t.suffixRounds) = r := by omega
    rw [if_pos h2, e1, e2, e3, e4]
    by_cases h3 : t.prefixRounds < r
    · rw [if_pos ⟨hrep, h3⟩]
      push_cast
      ring
    · have h4 : r = t.prefixRounds := by omega
      rw [if_neg (by omega), h4]
      push_cast
      ring
  · have e3 : min (r + 1) (R - t.suffixRounds) = R - t.suffixRounds := by omega
    have e4 : min r (R - t.suffixRounds) = R - t.suffixRounds := by omega
    have e5 : r + 1 - (R - t.suffixRounds) = r - (R - t.suffixRounds) + 1 := by
      clear * - h2
      omega
    rw [if_neg h2, e3, e4, e5, sumOf_take_succ size (by clear * - hr hs h2; omega)]
    by_cases h3 : t.prefixRounds < r
    · rw [if_pos ⟨hrep, h3⟩]
      push_cast
      ring
    · -- No bulk round lies between prefix and suffix.
      have h4 : R - t.suffixRounds = t.prefixRounds := by
        clear * - hfit h2 h3
        omega
      rw [if_neg (by omega), h4]
      push_cast
      ring

/-- Sizes add up: a later round has no less before it. -/
theorem sumBefore_mono (size : PhaseChunks → Nat) {r r' R : Nat}
    (hfit : t.prefixRounds + t.suffixRounds ≤ R) (hfix : t.repeats = false → R = t.prefixRounds)
    (hle : r ≤ r') (hr' : r' ≤ R) : t.sumBefore size r R ≤ t.sumBefore size r' R := by
  induction r', hle using Nat.le_induction with
  | base => exact le_refl _
  | succ r' hle ih =>
    have hstep := sumBefore_succ size hfit hfix (show r' < R by omega)
    have := ih (by omega)
    omega

end TemplateData

/-! ## What the constructor returns -/

theorem shotLayout_shape {spec : DemChunksSpec} {l : ShotLayout} (h : shotLayout spec = .ok l) :
    2 ≤ l.minRounds ∧ l.minRounds ≤ l.prefixPhases.length + l.suffixPhases.length + 2 ∧
    (spec.hasRepeatingPhase = false → l.suffixPhases = [] ∧ l.prefixPhases.length = l.minRounds) ∧
    (spec.hasRepeatingPhase = true →
      l.prefixPhases.length + 1 + l.suffixPhases.length ≤ l.minRounds ∨
        l.prefixPhases.length = l.minRounds ∧ l.suffixPhases = l.prefixPhases) := by
  unfold shotLayout at h
  split at h
  · next hrep =>
    rw [bind_eq_ok] at h
    obtain ⟨l', hl', hok⟩ := h
    cases hok
    have hlay := DemChunksSpec.layout_eq_ok hl'
    exact ⟨le_max_left _ _, hlay.1, fun hn => by simp [hrep] at hn, fun _ => hlay.2⟩
  · next hrep =>
    rw [bind_eq_ok] at h
    obtain ⟨seq, hseq, hok⟩ := h
    cases hok
    have hself : spec.selfLoops = [] := by
      simp only [DemChunksSpec.hasRepeatingPhase, List.any_eq_true, not_exists, not_and] at hrep
      simp only [DemChunksSpec.selfLoops, List.map_eq_nil_iff, List.filter_eq_nil_iff]
      exact hrep
    have hlen := DemChunksSpec.length_phaseSequence hseq
    rw [if_pos hself] at hlen
    -- A spec whose connections are no self-connections has a chain.
    have hchain : spec.chain ≠ [] := by
      intro hn
      simp only [DemChunksSpec.phaseSequence, bind_eq_ok, throwIf_eq_ok] at hseq
      obtain ⟨_, -, _, hc, -⟩ := hseq
      apply hc
      rw [List.eq_nil_iff_forall_not_mem]
      intro c hcon
      have hc' : c ∈ spec.chain := by
        simp only [DemChunksSpec.hasRepeatingPhase, List.any_eq_true, not_exists, not_and] at hrep
        exact List.mem_filter.mpr ⟨hcon, by simpa using hrep c hcon⟩
      rw [hn] at hc'
      exact List.not_mem_nil hc'
    have hpos : 0 < spec.chain.length := List.length_pos_iff.mpr hchain
    exact ⟨by simp only; omega, by simp only; omega, fun _ => ⟨rfl, rfl⟩, fun hn => absurd hn hrep⟩

/-- What the phase loop keeps: a phase's chunks are the ones built from an entry of its id, and
`maxSpan` is zero only while no chunk reaches the next round. -/
structure PhaseTable.Built (spec : DemChunksSpec) (acc : PhaseTable) : Prop where
  mem : ∀ p ∈ acc.phases, ∃ e ∈ spec.phases, e.id = p.1 ∧ buildPhase spec e = .ok p.2
  span : acc.maxSpan ≤ 1
  reach : acc.maxSpan = 0 →
    ∀ p ∈ acc.phases, reachesNextRound p.2.inner spec.seam.fromSeam = false

theorem addPhase_built {spec : DemChunksSpec} {acc acc' : PhaseTable} {e : PhaseSpecEntry}
    (he : e ∈ spec.phases) (h : addPhase spec acc e = .ok acc') (hacc : acc.Built spec) :
    acc'.Built spec := by
  simp only [addPhase, bind_eq_ok] at h
  obtain ⟨p, hp, uniform, -, hok⟩ := h
  cases hok
  refine ⟨?_, ?_, ?_⟩
  · intro q hq
    rcases List.mem_append.mp hq with hq | hq
    · exact hacc.mem q hq
    · obtain rfl := List.mem_singleton.mp hq
      exact ⟨e, he, rfl, hp⟩
  · have := hacc.span
    show (if _ then 1 else acc.maxSpan) ≤ 1
    split <;> omega
  · intro h0 q hq
    have hreach : reachesNextRound p.inner spec.seam.fromSeam = false := by
      by_contra hn
      rw [Bool.not_eq_false] at hn
      simp [hn] at h0
    rcases List.mem_append.mp hq with hq | hq
    · exact hacc.reach (by simpa [hreach] using h0) q hq
    · obtain rfl := List.mem_singleton.mp hq
      exact hreach

theorem foldlM_addPhase_built {spec : DemChunksSpec} {es : List PhaseSpecEntry}
    {acc acc' : PhaseTable} (hes : ∀ e ∈ es, e ∈ spec.phases)
    (h : es.foldlM (addPhase spec) acc = .ok acc') (hacc : acc.Built spec) : acc'.Built spec := by
  induction es generalizing acc with
  | nil =>
    cases h
    exact hacc
  | cons e es ih =>
    rw [List.foldlM_cons, bind_eq_ok] at h
    obtain ⟨acc₁, h1, h2⟩ := h
    exact ih (fun x hx => hes x (by simp [hx])) h2 (addPhase_built (hes e (by simp)) h1 hacc)

namespace ExperimentTemplate

variable (t : ExperimentTemplate)

/-- The steps of the constructor that a template's data comes from. -/
theorem built_steps : t.spec.validate = .ok () ∧
    (∃ l, shotLayout t.spec = .ok l ∧ t.prefixPhases = l.prefixPhases ∧
      t.suffixPhases = l.suffixPhases ∧ t.minRounds = l.minRounds) ∧
    t.repeats = t.spec.hasRepeatingPhase ∧ t.toTemplateData.checkSuffixWidths = .ok () ∧
    ∃ acc : PhaseTable, acc.Built t.spec ∧ t.phases = acc.phases ∧ t.maxSpan = acc.maxSpan := by
  have h := t.built
  simp only [buildTemplate, bind_eq_ok] at h
  obtain ⟨_, hval, l, hl, _, -, n, -, table, htable, _, hwidth, hok⟩ := h
  have hdata := Except.ok.inj hok
  have hbuilt := foldlM_addPhase_built (fun e he => (List.mem_filter.mp he).1) htable
    ⟨by simp, by simp, by simp⟩
  rw [hdata] at hwidth
  exact ⟨hval, ⟨l, hl, by rw [← hdata], by rw [← hdata], by rw [← hdata]⟩, by rw [← hdata],
    hwidth, table, hbuilt, by rw [← hdata], by rw [← hdata]⟩

theorem shape : t.toTemplateData.Shape := by
  obtain ⟨-, ⟨l, hl, hp, hs, hm⟩, hrep, -⟩ := t.built_steps
  obtain ⟨h1, h2, h3, h4⟩ := shotLayout_shape hl
  rw [← hrep] at h3 h4
  rw [← hm, ← hs, ← hp] at *
  exact ⟨h1, h2, h3, h4⟩

theorem maxSpan_le_one : t.maxSpan ≤ 1 := by
  obtain ⟨-, -, -, -, acc, hacc, -, hm⟩ := t.built_steps
  exact hm ▸ hacc.span

/-- Where no fault reaches past its round, no chunk inside a shot touches its outgoing band. -/
theorem reachesNextRound_eq_false (h : t.maxSpan = 0) (id : PhaseId) :
    reachesNextRound (t.phaseChunks id).inner t.spec.seam.fromSeam = false := by
  obtain ⟨-, -, -, -, acc, hacc, hp, hm⟩ := t.built_steps
  unfold TemplateData.phaseChunks
  cases hf : t.phases.find? fun p => p.1 = id with
  | none => rfl
  | some p => exact hacc.reach (hm ▸ h) p (hp ▸ List.mem_of_find?_eq_some hf)

/-- An admitted shot of a template that repeats may be any longer one. -/
theorem admits_of_le {R : Nat} (hrep : t.repeats = true) (h : t.minRounds ≤ R) :
    t.Admits R := ⟨h, fun hn => by simp [hrep] at hn⟩

theorem eq_prefixRounds {R : Nat} (h : t.Admits R) (hrep : t.repeats = false) :
    R = t.prefixRounds := by
  rw [(t.shape.fixed hrep).2]
  exact h.2 hrep

theorem suffixRounds_le {R : Nat} (h : t.Admits R) : t.suffixRounds ≤ R :=
  t.shape.suffixRounds_le.trans h.1

end ExperimentTemplate

/-! ## A memory experiment -/

/-- One detector and one fault a round; the fault flips its own round's detector and the next. -/
def memoryPhase : DemChunkSpec :=
  { numFaults := 1, hSparse := [0, -1], oSparse := [0, -1], errorRates := [1 / 10] }

/-- The smallest memory experiment: a first round, repeated rounds and a last round. -/
def memorySpec : DemChunksSpec where
  phases := [⟨⟨10⟩, memoryPhase⟩, ⟨⟨11⟩, memoryPhase⟩, ⟨⟨12⟩, memoryPhase⟩]
  connections := [⟨⟨10⟩, ⟨11⟩⟩, ⟨⟨11⟩, ⟨11⟩⟩, ⟨⟨11⟩, ⟨12⟩⟩]
  seam := ⟨⟨1⟩, ⟨0⟩⟩

def memoryTemplate : ExperimentTemplate where
  toTemplateData := (buildTemplate memorySpec).toOption.get (by decide +kernel)
  built := by decide +kernel

example : memoryTemplate.minRounds = 3 ∧ memoryTemplate.maxSpan = 1 := by decide +kernel

end CudaqQec
