import CudaqQec.ExtendedDem.Expand
import CudaqQec.Template.Basic

/-!
# Closed forms against the expanded shot

A template answers questions about a round without building the shot. Where the chain visits the
self-connected phase, its answers are those of the shot that `dem_chunks_from_spec` builds round by
round: the same phases, the same chunks and, for every size, the same sums.

* `phases_eq`: the phases of an admitted shot are its sequence.
* `phaseChunks_built`: a phase's chunks are built from its own spec.
* `closedForm_eq_expanded`: the queries, all together.
-/

namespace CudaqQec

open Checked ExtendedDem

/-! ## Sizes of a phase -/

namespace DemChunksSpec

variable (s : DemChunksSpec)

def phaseDetectors (id : PhaseId) : Except Error Nat := do
  let phase ← s.getPhase id
  s.detectorsOf phase ("dem_chunks." ++ id.name)

def phaseFaults (id : PhaseId) : Except Error Nat := do
  let phase ← s.getPhase id
  return phase.numFaults

/-- The measurements of a phase's round: its count with `D` rows, else one for each detector. -/
def phaseMeasurements (id : PhaseId) : Except Error Nat := do
  let phase ← s.getPhase id
  if s.hasDSparse then s.measurementsOf phase else s.detectorsOf phase ("dem_chunks." ++ id.name)

end DemChunksSpec

namespace TemplateData

variable (t : TemplateData)

def rowSums (ids : List PhaseId) : List Nat :=
  ids.foldl (fun sums id => sums ++ [sums.getLastD 0 + (t.phaseChunks id).rows]) [0]

/-- `row_offset`, over the sums the constructor keeps. -/
def rowOffsetFromSums (r R : Nat) : Int :=
  (t.rowSums t.prefixPhases).getD (min r t.prefixRounds) 0 +
    (if t.repeats ∧ t.prefixRounds < r then
      ((min r (R - t.suffixRounds) : Nat) - (t.prefixRounds : Int)) * (t.phaseChunks t.bulk).rows
    else 0) +
    (if R - t.suffixRounds < r then (t.rowSums t.suffixPhases).getD (r - (R - t.suffixRounds)) 0
    else 0 : Nat)

/-- An offset as the `size_t` that is returned. Its sums, differences and products wrap around, which
comes to one reduction of the integer. -/
def asSize (offset : Int) : Nat := (offset % 2 ^ 64).toNat

theorem asSize_natCast (n : Nat) : asSize n = size64 n := by
  rw [asSize, size64]
  norm_cast

variable {t}

private theorem foldl_rowSums (ids : List PhaseId) (sums : List Nat) (k : Nat) (h : k ≤ ids.length)
    (hs : sums ≠ []) :
    (ids.foldl (fun sums id => sums ++ [sums.getLastD 0 + (t.phaseChunks id).rows]) sums).getD
      (sums.length - 1 + k) 0 = sums.getLastD 0 + t.sumOf PhaseChunks.rows (ids.take k) := by
  induction ids generalizing sums k with
  | nil =>
    obtain rfl : k = 0 := by simpa using h
    simp [sumOf, List.getD_eq_getElem?_getD, List.getLastD_eq_getLast?, List.getLast?_eq_getElem?]
  | cons id ids ih =>
    have hpos : 0 < sums.length := List.length_pos_iff.mpr hs
    cases k with
    | zero =>
      -- The fold only appends, so what was there stays.
      have hkeep : ∀ (ids : List PhaseId) (sums : List Nat) (j : Nat), j < sums.length →
          (ids.foldl (fun sums id => sums ++ [sums.getLastD 0 + (t.phaseChunks id).rows]) sums).getD
            j 0 = sums.getD j 0 := by
        intro ids
        induction ids with
        | nil => intro sums j _; rfl
        | cons id ids ih =>
          intro sums j hj
          rw [List.foldl_cons, ih _ _ (by rw [List.length_append]; omega), getD_append_ite,
            if_pos hj]
      rw [Nat.add_zero, hkeep _ _ _ (by omega)]
      simp [sumOf, List.getD_eq_getElem?_getD, List.getLastD_eq_getLast?, List.getLast?_eq_getElem?]
    | succ k =>
      have hih := ih (sums ++ [sums.getLastD 0 + (t.phaseChunks id).rows]) k (by simpa using h)
        (by simp)
      rw [List.length_append, List.length_singleton, Nat.add_sub_cancel, List.getLastD_concat] at hih
      rw [List.foldl_cons, show sums.length - 1 + (k + 1) = sums.length + k by omega, hih,
        List.take_succ_cons, sumOf, sumOf, List.map_cons, List.sum_cons]
      omega

theorem getD_rowSums {ids : List PhaseId} {k : Nat} (h : k ≤ ids.length) :
    (t.rowSums ids).getD k 0 = t.sumOf PhaseChunks.rows (ids.take k) := by
  have := foldl_rowSums (t := t) ids [0] k h (by simp)
  simpa [rowSums] using this

/-- The two ways of summing rows agree. -/
theorem rowOffsetFromSums_eq {r R : Nat} (hs : t.suffixRounds ≤ R) (hr : r ≤ R) :
    t.rowOffsetFromSums r R = t.rowOffset r R := by
  have hp : t.prefixRounds = t.prefixPhases.length := rfl
  have hs' : t.suffixRounds = t.suffixPhases.length := rfl
  unfold rowOffsetFromSums rowOffset sumBefore
  rw [getD_rowSums (by omega)]
  have htake : t.prefixPhases.take (min r t.prefixRounds) = t.prefixPhases.take r := by
    rw [hp, List.take_eq_take_iff]
    omega
  rw [htake]
  by_cases h : R - t.suffixRounds < r
  · rw [if_pos h, getD_rowSums (by omega)]
  · have h0 : r - (R - t.suffixRounds) = 0 := by omega
    rw [if_neg h, h0]
    simp [sumOf]

end TemplateData

/-! ## The phase table -/

/-- The loop over the phases builds each entry's chunks, in order. -/
theorem foldlM_addPhase_phases {spec : DemChunksSpec} {es : List PhaseSpecEntry}
    {acc acc' : PhaseTable} (h : es.foldlM (addPhase spec) acc = .ok acc') :
    ∃ ps, acc'.phases = acc.phases ++ ps ∧
      List.Forall₂ (fun e p => p.1 = e.id ∧ buildPhase spec e = .ok p.2) es ps := by
  induction es generalizing acc with
  | nil =>
    cases h
    exact ⟨[], by simp, .nil⟩
  | cons e es ih =>
    rw [List.foldlM_cons, bind_eq_ok] at h
    obtain ⟨acc₁, h1, h2⟩ := h
    simp only [addPhase, bind_eq_ok] at h1
    obtain ⟨p, hp, _, -, hok⟩ := h1
    cases hok
    obtain ⟨ps, hps, hall⟩ := ih h2
    refine ⟨(e.id, p) :: ps, ?_, .cons ⟨rfl, hp⟩ hall⟩
    rw [hps, List.append_assoc]
    rfl

/-- Looking a phase up in the table and among the entries finds the same one. -/
theorem find?_of_forall₂ {spec : DemChunksSpec} {es : List PhaseSpecEntry}
    {ps : List (PhaseId × PhaseChunks)} {id : PhaseId} {e : PhaseSpecEntry}
    (h : List.Forall₂ (fun e p => p.1 = e.id ∧ buildPhase spec e = .ok p.2) es ps)
    (he : es.find? (fun e => e.id = id) = some e) :
    ∃ p, ps.find? (fun p => p.1 = id) = some p ∧ buildPhase spec e = .ok p.2 := by
  induction h with
  | nil => simp at he
  | @cons e' p es ps hp _ ih =>
    rw [List.find?_cons] at he ⊢
    by_cases hid : e'.id = id
    · have hpid : p.1 = id := hp.1.trans hid
      simp only [hid, decide_true] at he
      simp only [hpid, decide_true]
      obtain rfl := Option.some.inj he
      exact ⟨p, rfl, hp.2⟩
    · have hpid : p.1 ≠ id := fun hc => hid (hp.1.symm.trans hc)
      simp only [hid, decide_false] at he
      simp only [hpid, decide_false]
      exact ih he

namespace ExperimentTemplate

variable (t : ExperimentTemplate)

theorem built_layout : ∃ l table, shotLayout t.spec = .ok l ∧ t.prefixPhases = l.prefixPhases ∧
    t.suffixPhases = l.suffixPhases ∧ t.bulk = l.bulk ∧ t.minRounds = l.minRounds ∧
    (t.spec.phases.filter fun e => e.id ∈ l.prefixPhases ∨ e.id ∈ l.suffixPhases ∨
      t.spec.hasRepeatingPhase ∧ e.id = l.bulk).foldlM (addPhase t.spec) ⟨[], 0, none⟩ = .ok table ∧
    t.phases = table.phases := by
  have h := t.built
  simp only [buildTemplate, bind_eq_ok] at h
  obtain ⟨_, -, l, hl, _, -, n, -, table, htable, _, -, hok⟩ := h
  have hdata := Except.ok.inj hok
  exact ⟨l, table, hl, by rw [← hdata], by rw [← hdata], by rw [← hdata], by rw [← hdata], htable,
    by rw [← hdata]⟩

/-- The chunks of a phase of a shot are built from the phase's own spec. -/
theorem phaseChunks_built {id : PhaseId} {e : PhaseSpecEntry}
    (hid : id ∈ t.prefixPhases ∨ id ∈ t.suffixPhases ∨ t.repeats = true ∧ id = t.bulk)
    (he : t.spec.phases.find? (fun e => e.id = id) = some e) :
    buildPhase t.spec e = .ok (t.phaseChunks id) := by
  obtain ⟨l, table, -, hp, hs, hb, -, htable, hphases⟩ := t.built_layout
  obtain ⟨ps, hps, hall⟩ := foldlM_addPhase_phases htable
  rw [t.built_steps.2.2.1, hp, hs, hb] at hid
  have hfilter : (t.spec.phases.filter fun e => e.id ∈ l.prefixPhases ∨ e.id ∈ l.suffixPhases ∨
      t.spec.hasRepeatingPhase ∧ e.id = l.bulk).find? (fun e => e.id = id) = some e := by
    rw [List.find?_filter, ← he]
    congr 1
    funext x
    by_cases hxid : x.id = id
    · rw [hxid]
      simp [hid]
    · simp [hxid]
  obtain ⟨p, hpf, hbuild⟩ := find?_of_forall₂ hall hfilter
  have hlook : t.phases.find? (fun p => p.1 = id) = some p := by
    rw [hphases, hps]
    exact hpf
  rw [TemplateData.phaseChunks, hlook]
  exact hbuild

/-! ## The phases of a shot -/

theorem selfLoops_of_repeats (hrep : t.repeats = false) : t.spec.selfLoops = [] := by
  rw [t.built_steps.2.2.1] at hrep
  simp only [DemChunksSpec.hasRepeatingPhase, List.any_eq_false] at hrep
  simp only [DemChunksSpec.selfLoops, List.map_eq_nil_iff, List.filter_eq_nil_iff]
  exact hrep

theorem around (hrep : t.repeats = true) (hon : t.spec.OnChain) :
    t.spec.selfLoops = [t.bulk] ∧ t.minRounds = max 2 t.spec.minimumRounds ∧
      DemChunksSpec.Around t.spec t.bulk t.prefixPhases t.suffixPhases := by
  obtain ⟨l, -, hl, hp, hs, hb, hm, -⟩ := t.built_layout
  rw [t.built_steps.2.2.1] at hrep
  rw [shotLayout, if_pos hrep, bind_eq_ok] at hl
  obtain ⟨lay, hlay, hok⟩ := hl
  cases hok
  have hlay' := hlay
  simp only [DemChunksSpec.layout, bind_eq_ok] at hlay'
  obtain ⟨rep, hr, seq, hseq, hret⟩ := hlay'
  have hself := DemChunksSpec.repeatingPhase_eq_ok hr
  have hshort : t.spec.shortest = t.spec.withRounds (max 2 t.spec.minimumRounds) := rfl
  rw [hshort] at hseq
  obtain ⟨-, -, before, after, har⟩ := DemChunksSpec.exists_around hself hon hseq
  have hl' := har.layout_eq hself
  rw [hlay] at hl'
  obtain rfl := Except.ok.inj hl'
  simp only at hp hs hb hm
  rw [hp, hs, hb]
  exact ⟨hself, hm, har⟩

/-- Prefix and suffix leave room in every shot. -/
theorem rounds_fit (hon : t.spec.OnChain) {R : Nat} (hR : t.Admits R) :
    t.prefixRounds + t.suffixRounds ≤ R := by
  cases hrep : t.repeats with
  | true =>
    obtain ⟨-, hm, har⟩ := t.around hrep hon
    have hlen := har.length
    have hmin := hR.1
    unfold TemplateData.prefixRounds TemplateData.suffixRounds
    omega
  | false =>
    obtain ⟨h1, h2⟩ := t.shape.fixed hrep
    have := hR.1
    have hs : t.suffixRounds = 0 := by rw [TemplateData.suffixRounds, h1, List.length_nil]
    omega

/-- A chain that leaves room for a repeated round visits the repeating phase. -/
theorem onChain_of_room
    (h : t.repeats = true → t.prefixRounds + 1 + t.suffixRounds ≤ t.minRounds) : t.spec.OnChain := by
  by_contra hoff
  have hself : t.spec.selfLoops ≠ [] := by
    intro hn
    exact hoff fun rep hrep => by simp [hn] at hrep
  have hrep : t.repeats = true := by
    by_contra hn
    exact hself (t.selfLoops_of_repeats (by simpa using hn))
  have hroom := h hrep
  obtain ⟨l, -, hl, hp, -, -, hm, -⟩ := t.built_layout
  rw [t.built_steps.2.2.1] at hrep
  rw [shotLayout, if_pos hrep, bind_eq_ok] at hl
  obtain ⟨lay, hlay, hok⟩ := hl
  cases hok
  simp only [DemChunksSpec.layout, bind_eq_ok] at hlay
  obtain ⟨rep, hr, seq, hseq, hret⟩ := hlay
  cases hret
  have hshort : t.spec.shortest = t.spec.withRounds (max 2 t.spec.minimumRounds) := rfl
  rw [hshort] at hseq
  obtain ⟨-, -, hnot, hlen⟩ := DemChunksSpec.phaseSequence_offChain
    (DemChunksSpec.repeatingPhase_eq_ok hr) hoff hseq
  -- The walk back to the repeating phase goes past the whole chain.
  have hwhole : seq.takeWhile (· ≠ rep) = seq := by
    rw [List.takeWhile_eq_self_iff]
    intro id hid
    have : id ≠ rep := fun he => hnot (he ▸ hid)
    simpa using this
  have hp' : t.prefixPhases = seq := by
    rw [hp]
    exact hwhole
  have hm' : t.minRounds = max 2 t.spec.minimumRounds := hm
  unfold TemplateData.prefixRounds at hroom
  rw [hp', hlen] at hroom
  omega

/-- The phases of an admitted shot are its sequence. -/
theorem phases_eq (hon : t.spec.OnChain) {R : Nat} (hR : t.Admits R) :
    (t.spec.withRounds R).phaseSequence = .ok ((List.range R).map fun i => t.phase i R) := by
  have hfit := t.rounds_fit hon hR
  cases hrep : t.repeats with
  -- the chain repeats: prefix, copies of the bulk phase, suffix, position by position
  | true =>
    obtain ⟨-, hm, har⟩ := t.around hrep hon
    have hmin := hR.1
    rw [har.rounds R (by omega) (by omega)]
    congr 1
    apply List.ext_getElem?
    intro i
    unfold TemplateData.prefixRounds TemplateData.suffixRounds at hfit
    unfold TemplateData.phase TemplateData.prefixRounds TemplateData.suffixRounds
    rw [List.getElem?_append, List.getElem?_append, List.length_append, List.length_replicate,
      List.getElem?_replicate, List.getElem?_map]
    by_cases hi : i < R
    · rw [List.getElem?_range hi, Option.map_some]
      by_cases h1 : i < t.prefixPhases.length
      · rw [if_pos (by omega), if_pos h1, if_pos h1, List.getD_eq_getElem?_getD,
          List.getElem?_eq_getElem h1, Option.getD_some]
      · by_cases h2 : i < R - t.suffixPhases.length
        · rw [if_pos (by omega), if_neg h1, if_pos (by omega), if_neg h1, if_pos h2]
        · have hj : i - (R - t.suffixPhases.length) < t.suffixPhases.length := by omega
          have he : i - (t.prefixPhases.length +
              (R - t.prefixPhases.length - t.suffixPhases.length)) =
              i - (R - t.suffixPhases.length) := by omega
          rw [if_neg (by omega), he, if_neg h1, if_neg h2, List.getD_eq_getElem?_getD,
            List.getElem?_eq_getElem hj, Option.getD_some]
    · rw [if_neg (by omega), List.getElem?_eq_none (by omega),
        List.getElem?_eq_none (by rw [List.length_range]; omega), Option.map_none]
  -- nothing repeats: the layout was built from this sequence
  | false =>
    rw [DemChunksSpec.phaseSequence_withRounds (t.selfLoops_of_repeats hrep)]
    obtain ⟨l, -, hl, hp, -, -, -, -⟩ := t.built_layout
    rw [shotLayout, if_neg (by rw [← t.built_steps.2.2.1, hrep]; simp), bind_eq_ok] at hl
    obtain ⟨seq, hseq, hok⟩ := hl
    cases hok
    rw [hseq]
    have hlen : R = t.prefixPhases.length := t.eq_prefixRounds hR hrep
    have hp' : t.prefixPhases = seq := hp
    congr 1
    apply List.ext_getElem?
    intro i
    unfold TemplateData.phase TemplateData.prefixRounds
    rw [List.getElem?_map, ← hp']
    by_cases hi : i < R
    · rw [List.getElem?_range hi, Option.map_some, if_pos (by omega), List.getD_eq_getElem?_getD,
        List.getElem?_eq_getElem (by omega), Option.getD_some]
    · rw [List.getElem?_eq_none (by omega),
        List.getElem?_eq_none (by rw [List.length_range]; omega), Option.map_none]

/-- A phase of a shot is a prefix phase, a suffix phase or the repeating one. -/
theorem phase_kind (hon : t.spec.OnChain) {r R : Nat} (hR : t.Admits R) (hr : r < R) :
    t.phase r R ∈ t.prefixPhases ∨ t.phase r R ∈ t.suffixPhases ∨
      t.repeats = true ∧ t.phase r R = t.bulk := by
  have hfit := t.rounds_fit hon hR
  unfold TemplateData.prefixRounds TemplateData.suffixRounds at hfit
  unfold TemplateData.phase TemplateData.prefixRounds TemplateData.suffixRounds
  split
  · next h =>
    left
    rw [List.getD_eq_getElem?_getD, List.getElem?_eq_getElem h, Option.getD_some]
    exact List.getElem_mem h
  · next h =>
    split
    · refine .inr (.inr ⟨?_, rfl⟩)
      by_contra hn
      have heq : R = t.prefixPhases.length := t.eq_prefixRounds hR (by simpa using hn)
      omega
    · right
      left
      have hj : r - (R - t.suffixPhases.length) < t.suffixPhases.length := by omega
      rw [List.getD_eq_getElem?_getD, List.getElem?_eq_getElem hj, Option.getD_some]
      exact List.getElem_mem hj

/-! ## The chunks of a shot -/

/-- The spec of a round's phase, and the chunks the template built from it. -/
theorem exists_phase (hon : t.spec.OnChain) {r R : Nat} (hR : t.Admits R) (hr : r < R) :
    ∃ e ∈ t.spec.phases, e.id = t.phase r R ∧ t.spec.getPhase (t.phase r R) = .ok e.spec ∧
      buildPhase t.spec e = .ok (t.phaseChunks (t.phase r R)) := by
  have hmem : t.phase r R ∈ (List.range R).map fun i => t.phase i R :=
    List.mem_map.mpr ⟨r, List.mem_range.mpr hr, rfl⟩
  have hnamed : ∃ c ∈ t.spec.connections, c.fromPhase = t.phase r R ∨ c.toPhase = t.phase r R :=
    DemChunksSpec.named_of_mem_phaseSequence (t.phases_eq hon hR) hmem
  obtain ⟨e, he, hget⟩ := DemChunksSpec.exists_getPhase t.built_steps.1 hnamed
  exact ⟨e, List.mem_of_find?_eq_some he, by simpa using List.find?_some he, hget,
    t.phaseChunks_built (t.phase_kind hon hR hr) he⟩

/-- The chunk of a round is the one `dem_chunks_from_spec` builds for it. -/
theorem roundChunk_eq (hon : t.spec.OnChain) {r R : Nat} (hR : t.Admits R) (hr : r < R) :
    roundChunk (t.spec.withRounds R) R r (t.phase r R) = .ok (t.chunk r R) := by
  obtain ⟨e, -, -, hget, hbuild⟩ := t.exists_phase hon hR hr
  simp only [buildPhase, bind_eq_ok] at hbuild
  obtain ⟨inner, hinner, last, hlast, _, -, rows, -, hok⟩ := hbuild
  have hp := Except.ok.inj hok
  have hget' : (t.spec.withRounds R).getPhase (t.phase r R) = .ok e.spec := hget
  rw [roundChunk, hget', ok_bind]
  unfold roundSeams TemplateData.chunk
  split
  · rw [← hp]
    exact demChunkFromSpec_context _ hinner
  · rw [← hp]
    exact demChunkFromSpec_context _ hlast

/-- The chunks of an admitted shot are those `dem_chunks_from_spec` builds. -/
theorem chunks_eq (hon : t.spec.OnChain) {R : Nat} (hR : t.Admits R) :
    demChunksFromSpec (t.spec.withRounds R) = .ok ((List.range R).map fun i => t.chunk i R) := by
  have hval := DemChunksSpec.validate_withRounds t.built_steps.1 (t.shape.two_le.trans hR.1)
  refine demChunksFromSpec_eq_ok.mpr ⟨hval, _, t.phases_eq hon hR, by simp, ?_⟩
  intro i hi
  rw [List.length_map, List.length_range] at hi ⊢
  rw [List.getD_eq_getElem?_getD, List.getElem?_map, List.getElem?_range hi,
    List.getD_eq_getElem?_getD, List.getElem?_map, List.getElem?_range hi]
  exact t.roundChunk_eq hon hR hi

theorem chunk_toSeam (hon : t.spec.OnChain) {r R : Nat} (hR : t.Admits R) (hr : r < R) :
    (t.chunk r R).seamRowsOrZero t.spec.seam.toSeam = t.sizeAt PhaseChunks.rows r R ∧
      (t.chunk r R).numInteriorRows = 0 := by
  obtain ⟨e, -, -, -, hbuild⟩ := t.exists_phase hon hR hr
  simp only [buildPhase, bind_eq_ok] at hbuild
  obtain ⟨inner, hinner, last, hlast, _, -, rows, hrows, hok⟩ := hbuild
  have hp := Except.ok.inj hok
  have hint := (demChunkFromSpec_built hinner).interior
  rw [DemChunksSpec.detectorsOf, hinner, ok_bind, hint, Nat.add_zero] at hrows
  have hin : inner.seamRowsOrZero t.spec.seam.toSeam = rows := Except.ok.inj hrows
  unfold TemplateData.sizeAt TemplateData.chunk
  rw [← hp]
  split
  · exact ⟨hin, hint⟩
  · exact ⟨(demChunkFromSpec_toSeam hinner hlast).trans hin, (demChunkFromSpec_built hlast).interior⟩

/-! ## Sums of sizes -/

/-- The sizes a template keeps for a round are those of its phase, and every phase has a count. -/
theorem phase_sizes (hon : t.spec.OnChain) {r R : Nat} (hR : t.Admits R) (hr : r < R) :
    t.spec.phaseDetectors (t.phase r R) = .ok (t.sizeAt PhaseChunks.rows r R) ∧
      t.spec.phaseFaults (t.phase r R) = .ok (t.sizeAt PhaseChunks.faults r R) ∧
      (t.phaseChunks (t.phase r R)).measurements = some (t.sizeAt PhaseChunks.width r R) ∧
      t.spec.phaseMeasurements (t.phase r R) = .ok (t.sizeAt PhaseChunks.width r R) := by
  obtain ⟨e, hmem, hid, hget, hbuild⟩ := t.exists_phase hon hR hr
  simp only [buildPhase, bind_eq_ok] at hbuild
  obtain ⟨inner, hinner, last, -, _, -, rows, hrows, hok⟩ := hbuild
  have hp := Except.ok.inj hok
  rw [hid] at hrows
  have hfaults := (demChunkFromSpec_built hinner).faults
  unfold TemplateData.sizeAt
  refine ⟨?_, ?_, ?_⟩
  · rw [DemChunksSpec.phaseDetectors, hget, ok_bind, hrows, ← hp]
  · rw [DemChunksSpec.phaseFaults, hget, ok_bind, ← hp]
    simp only [hfaults]
    rfl
  · rw [DemChunksSpec.phaseMeasurements, hget, ok_bind, ← hp]
    cases hD : t.spec.hasDSparse with
    | true =>
      -- A valid spec whose phases carry `D` rows gives every phase a count.
      have hval := t.built_steps.1
      simp only [DemChunksSpec.validate, bind_eq_ok, forM_eq_ok, throwIf_eq_ok] at hval
      obtain ⟨_, -, _, -, _, -, _, -, _, -, _, -, _, -, _, -, hcount⟩ := hval
      have hsome := hcount e hmem
      rw [not_and] at hsome
      obtain ⟨n, hn⟩ := Option.ne_none_iff_exists'.mp (hsome hD)
      simp only [DemChunksSpec.measurementsOf, hn, PhaseChunks.width, Option.getD_some, if_true,
        and_self]
    | false => exact ⟨rfl, hrows⟩

/-- A size summed by closed form is the sum over the phases of the rounds before. -/
theorem sumBefore_eq_sum (hon : t.spec.OnChain) (size : PhaseChunks → Nat)
    (sizeOf : PhaseId → Except Error Nat) {R : Nat} (hR : t.Admits R)
    (hsize : ∀ i < R, sizeOf (t.phase i R) = .ok (t.sizeAt size i R)) {r : Nat} (hr : r ≤ R) :
    ∃ sizes, ((List.range r).map fun i => t.phase i R).mapM sizeOf = .ok sizes ∧
      t.sumBefore size r R = sizes.sum := by
  induction r with
  | zero => exact ⟨[], rfl, by simp⟩
  | succ r ih =>
    obtain ⟨sizes, hm, hsum⟩ := ih (by omega)
    refine ⟨sizes ++ [t.sizeAt size r R], ?_, ?_⟩
    · rw [List.range_succ, List.map_append, List.mapM_append, hm, ok_bind]
      simp only [List.map_cons, List.map_nil, List.mapM_cons, List.mapM_nil, hsize r (by omega)]
      rfl
    · rw [TemplateData.sumBefore_succ size (t.rounds_fit hon hR) (t.eq_prefixRounds hR)
        (by omega), hsum, List.sum_append, List.sum_singleton]
      push_cast
      rfl

/-- The closed forms of a template describe the expanded shot: its phases, its chunks, and, as a
`size_t` counts them, the detectors, faults and measurements before every round. -/
theorem closedForm_eq_expanded (hon : t.spec.OnChain) (R : Nat) (hR : t.Admits R) :
    (∀ i < R, t.checkRound i (R - 1) R = .ok ()) ∧
    (t.spec.withRounds R).phaseSequence = .ok ((List.range R).map fun i => t.phase i R) ∧
    demChunksFromSpec (t.spec.withRounds R) = .ok ((List.range R).map fun i => t.chunk i R) ∧
    ∀ r ≤ R, t.checkRound r R R = .ok () ∧
      (∃ rows, ((List.range r).map fun i => t.phase i R).mapM t.spec.phaseDetectors = .ok rows ∧
        TemplateData.asSize (t.rowOffsetFromSums r R) = size64 rows.sum) ∧
      (∃ faults, ((List.range r).map fun i => t.phase i R).mapM t.spec.phaseFaults = .ok faults ∧
        TemplateData.asSize (t.columnOffset r R) = size64 faults.sum) ∧
      (∀ i < r, (t.phaseChunks (t.phase i R)).measurements ≠ none) ∧
      ∃ measurements,
        ((List.range r).map fun i => t.phase i R).mapM t.spec.phaseMeasurements =
          .ok measurements ∧
        TemplateData.asSize (t.measurementOffset r R) = size64 measurements.sum := by
  refine ⟨fun i hi => (TemplateData.checkRound_eq_ok _).mpr ⟨hR, by omega⟩, t.phases_eq hon hR,
    t.chunks_eq hon hR, ?_⟩
  intro r hr
  -- a sum in closed form is the sum over the rounds, and both are reduced alike
  have hsum : ∀ (size : PhaseChunks → Nat) (sizeOf : PhaseId → Except Error Nat),
      (∀ i < R, sizeOf (t.phase i R) = .ok (t.sizeAt size i R)) →
        ∃ sizes, ((List.range r).map fun i => t.phase i R).mapM sizeOf = .ok sizes ∧
          TemplateData.asSize (t.sumBefore size r R) = size64 sizes.sum := by
    intro size sizeOf hsize
    obtain ⟨sizes, hm, heq⟩ := t.sumBefore_eq_sum hon size sizeOf hR hsize hr
    exact ⟨sizes, hm, by rw [heq, TemplateData.asSize_natCast]⟩
  refine ⟨(TemplateData.checkRound_eq_ok _).mpr ⟨hR, hr⟩, ?_, ?_, ?_, ?_⟩
  · rw [TemplateData.rowOffsetFromSums_eq (t.suffixRounds_le hR) hr]
    exact hsum _ _ fun i hi => (t.phase_sizes hon hR hi).1
  · exact hsum _ _ fun i hi => (t.phase_sizes hon hR hi).2.1
  · intro i hi
    rw [(t.phase_sizes hon hR (by omega)).2.2.1]
    simp
  · exact hsum _ _ fun i hi => (t.phase_sizes hon hR hi).2.2.2

/-- Five rounds of the memory experiment. -/
theorem closedForm_eq_expanded_memory :
    memoryTemplate.spec.OnChain ∧ memoryTemplate.Admits 5 ∧
    demChunksFromSpec (memoryTemplate.spec.withRounds 5) =
      .ok ((List.range 5).map fun i => memoryTemplate.chunk i 5) := by
  have hon : memoryTemplate.spec.OnChain := by decide +kernel
  have hadm : memoryTemplate.Admits 5 := by decide +kernel
  exact ⟨hon, hadm, (closedForm_eq_expanded memoryTemplate hon 5 hadm).2.2.1⟩

/-! ## A long shot -/

def twoDetectorSpec : DemChunksSpec :=
  { memorySpec with
    phases := memorySpec.phases.map fun e => { e with spec := { e.spec with hSparse := [0, -1, -1] } } }

def twoDetectorTemplate : ExperimentTemplate where
  toTemplateData := (buildTemplate twoDetectorSpec).toOption.get (by decide +kernel)
  built := by decide +kernel

/-- Over `2 ^ 63 + 5` rounds the detectors are more than a `size_t` counts. -/
theorem closedForm_ne_expanded_long :
    twoDetectorTemplate.spec.OnChain ∧ twoDetectorTemplate.Admits (2 ^ 63 + 5) ∧
      ∃ rows, ((List.range (2 ^ 63 + 5)).map fun i => twoDetectorTemplate.phase i (2 ^ 63 + 5)).mapM
          twoDetectorTemplate.spec.phaseDetectors = .ok rows ∧
        TemplateData.asSize (twoDetectorTemplate.rowOffsetFromSums (2 ^ 63 + 5) (2 ^ 63 + 5)) = 10 ∧
          rows.sum = 2 ^ 64 + 10 := by
  have hon : twoDetectorTemplate.spec.OnChain := by decide +kernel
  have hadm : twoDetectorTemplate.Admits (2 ^ 63 + 5) := by decide +kernel
  have hrows : twoDetectorTemplate.rowOffset (2 ^ 63 + 5) (2 ^ 63 + 5) = 2 ^ 64 + 10 := by
    decide +kernel
  obtain ⟨rows, hm, hsum⟩ := twoDetectorTemplate.sumBefore_eq_sum hon _ _ hadm
    (fun i hi => (twoDetectorTemplate.phase_sizes hon hadm hi).1) (le_refl _)
  have heq : (rows.sum : Int) = 2 ^ 64 + 10 := hsum.symm.trans hrows
  refine ⟨hon, hadm, rows, hm, ?_, by exact_mod_cast heq⟩
  rw [TemplateData.rowOffsetFromSums_eq (twoDetectorTemplate.suffixRounds_le hadm) (le_refl _), hrows]
  decide

end ExperimentTemplate

end CudaqQec
