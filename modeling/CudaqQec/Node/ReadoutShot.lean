import CudaqQec.Node.ReadoutOrder
import CudaqQec.Node.ReadoutStream

/-!
# A shot's raw logical value

The rounds of a shot are placed as its phases follow one another. The node looks at one shot length only,
and places the prefix from the start and the suffix from the end.

* `TemplateData.named`: the measurements that the `m2o_sparse` of a list of rounds name.
* `ReadsShot`: what the node is to do with the measurements of a shot, however they are cut.
* `readsShot_iff`: when it does.
-/

namespace CudaqQec

open Checked Parity

/-! ## Measurements that are named -/

/-- The measurements that an `m2o_sparse` names for observable `i`, its round's first one at `start`. -/
def namedIn (m2o : List Int) (i start : Nat) : List Nat :=
  ((readings 0 m2o).filter fun r => r.1 = i).map fun r => start + r.2.toNat

namespace TemplateData

variable (t : TemplateData)

/-- The measurements that the rounds of some phases name for observable `i`, the first of all at
`start`. -/
@[grind =] def named (i : Nat) : Nat → List PhaseId → List Nat
  | _, [] => []
  | start, id :: ids =>
    namedIn (t.phaseSpec id).m2oSparse i start ++ named i (start + (t.phaseChunks id).width) ids

def measurements (ids : List PhaseId) : Nat := t.sumOf PhaseChunks.width ids

variable {t}

@[simp] theorem measurements_nil : t.measurements [] = 0 := rfl

theorem measurements_append (ids ids' : List PhaseId) :
    t.measurements (ids ++ ids') = t.measurements ids + t.measurements ids' := by
  simp [measurements, sumOf]

theorem named_append (i start : Nat) (ids ids' : List PhaseId) :
    t.named i start (ids ++ ids') =
      t.named i start ids ++ t.named i (start + t.measurements ids) ids' := by
  induction ids generalizing start with
  | nil => rfl
  | cons id ids ih =>
    rw [List.cons_append, named, named, ih, List.append_assoc, Nat.add_assoc]
    rfl

theorem named_eq_nil {i : Nat} {ids : List PhaseId} (start : Nat)
    (h : ∀ id ∈ ids, readings 0 (t.phaseSpec id).m2oSparse = []) : t.named i start ids = [] := by
  induction ids generalizing start with
  | nil => rfl
  | cons id ids ih =>
    rw [named, ih _ fun id' hid => h id' (List.mem_cons_of_mem _ hid), namedIn,
      h id List.mem_cons_self]
    rfl

end TemplateData

/-! ## The rounds of a node -/

/-- The round that `add_reading_round` appends, if it reads anything. -/
def readingRound (m2o : List Int) (round begin width : Nat) : Option ReadingRound :=
  if readings 0 m2o = [] then none
  else some {
    round := round
    begin := begin
    observables := (List.range width).map fun p : Nat =>
      ((readings 0 m2o).filter fun r => r.2 = (p : Int)).map (·.1) }

/-- Every reading is of a measurement of its round. -/
def ReadsInside (m2o : List Int) (width : Nat) : Prop :=
  ∀ r ∈ readings 0 m2o, 0 ≤ r.2 ∧ r.2 < width

theorem addReadingRound_eq {m2o : List Int} {width : Nat} (h : ReadsInside m2o width)
    (round begin : Nat) :
    addReadingRound m2o round begin width = .ok (readingRound m2o round begin width) := by
  have hnone : (readings 0 m2o).find? (fun r => r.2 < 0 ∨ (width : Int) ≤ r.2) = none := by
    rw [List.find?_eq_none]
    intro r hr
    have := h r hr
    simp only [decide_eq_true_eq]
    omega
  unfold addReadingRound readingRound
  rw [hnone]
  dsimp only
  split <;> rfl

theorem readingRound_eq_some {m2o : List Int} {round begin width : Nat} {g : ReadingRound}
    (h : readingRound m2o round begin width = some g) :
    readings 0 m2o ≠ [] ∧ g.round = round ∧ g.begin = begin ∧ g.width = width := by
  unfold readingRound at h
  split at h
  · cases h
  · next hne =>
    cases h
    refine ⟨hne, rfl, rfl, ?_⟩
    change ((List.range width).map _).length = width
    rw [List.length_map, List.length_range]

/-- A round reads the measurements that its `m2o_sparse` names. -/
theorem named_readingRound {m2o : List Int} {width : Nat} (h : ReadsInside m2o width)
    (round begin i start : Nat) :
    ((readingRound m2o round begin width).toList.flatMap fun g => g.named i start).Perm
      (namedIn m2o i start) := by
  unfold readingRound
  split
  · next hnil =>
    rw [namedIn, hnil]
    exact List.Perm.refl _
  · have hlist : namedIn m2o i start =
        (((readings 0 m2o).filter fun r => r.1 = i).map fun r => r.2.toNat).map (start + ·) := by
      rw [List.map_map]
      rfl
    have hbelow : ∀ x ∈ ((readings 0 m2o).filter fun r => r.1 = i).map (fun r => r.2.toNat),
        x < width := by
      intro x hx
      obtain ⟨r, hr, rfl⟩ := List.mem_map.mp hx
      have := h r (List.mem_filter.mp hr).1
      omega
    have hperm := (flatMap_replicate_count_perm hbelow).map (start + ·)
    rw [hlist]
    refine List.Perm.trans (List.Perm.of_eq ?_) hperm
    rw [Option.toList_some, List.flatMap_singleton, ReadingRound.named, List.map_flatMap]
    change (List.range ((List.range width).map _).length).flatMap _ = _
    rw [List.length_map, List.length_range]
    apply List.flatMap_congr
    intro p hp
    have hp := List.mem_range.mp hp
    rw [List.map_replicate, getD_map_range, if_pos hp]
    congr 1
    rw [List.count, List.count, List.countP_map, List.countP_map, List.countP_filter, List.countP_filter]
    apply List.countP_congr
    intro r hr
    have := h r hr
    simp only [Function.comp_apply, Bool.and_eq_true, beq_iff_eq, decide_eq_true_eq]
    omega

namespace TemplateData

variable (t : TemplateData)

def phaseAt (ids : List PhaseId) (j : Nat) : PhaseId := ids.getD j ⟨0⟩

/-! ## The rounds of a list of phases -/

def roundsOf (number : Nat → Nat) (ids : List PhaseId) (n : Nat) : List ReadingRound :=
  (List.range n).filterMap fun j => readingRound (t.phaseSpec (phaseAt ids j)).m2oSparse (number j)
    (t.measurements (ids.take j)) (t.phaseChunks (phaseAt ids j)).width

/-- The readings of every phase are of measurements of its round. -/
def Inside (ids : List PhaseId) : Prop :=
  ∀ id ∈ ids, ReadsInside (t.phaseSpec id).m2oSparse (t.phaseChunks id).width

variable {t} {number : Nat → Nat} {ids : List PhaseId} {n : Nat}

theorem take_succ_phaseAt {j : Nat} (hj : j < ids.length) :
    ids.take (j + 1) = ids.take j ++ [phaseAt ids j] := by
  rw [List.take_add_one, List.getElem?_eq_getElem hj, phaseAt, List.getD_eq_getElem?_getD,
    List.getElem?_eq_getElem hj]
  rfl

theorem phaseAt_mem {j : Nat} (hj : j < ids.length) : phaseAt ids j ∈ ids := by
  rw [phaseAt, List.getD_eq_getElem?_getD, List.getElem?_eq_getElem hj]
  exact List.getElem_mem hj

theorem measurements_take_succ {j : Nat} (hj : j < ids.length) : t.measurements (ids.take (j + 1)) =
    t.measurements (ids.take j) + (t.phaseChunks (phaseAt ids j)).width := by
  rw [take_succ_phaseAt hj, measurements_append]
  rfl

theorem measurements_take_mono {j k : Nat} (hjk : j ≤ k) (hk : k ≤ ids.length) :
    t.measurements (ids.take j) ≤ t.measurements (ids.take k) := by
  induction k, hjk using Nat.le_induction with
  | base => exact Nat.le_refl _
  | succ k _ ih =>
    rw [measurements_take_succ (by omega)]
    exact (ih (by omega)).trans (Nat.le_add_right _ _)

theorem roundsOf_succ (n : Nat) : t.roundsOf number ids (n + 1) = t.roundsOf number ids n ++
    (readingRound (t.phaseSpec (phaseAt ids n)).m2oSparse (number n)
      (t.measurements (ids.take n)) (t.phaseChunks (phaseAt ids n)).width).toList := by
  unfold roundsOf
  rw [List.range_succ, List.filterMap_append]
  rfl

theorem mem_roundsOf {g : ReadingRound} (hg : g ∈ t.roundsOf number ids n) : ∃ j < n,
    readings 0 (t.phaseSpec (phaseAt ids j)).m2oSparse ≠ [] ∧ g.round = number j ∧
      g.begin = t.measurements (ids.take j) ∧ g.width = (t.phaseChunks (phaseAt ids j)).width := by
  obtain ⟨j, hj, hg⟩ := List.mem_filterMap.mp hg
  exact ⟨j, List.mem_range.mp hj, readingRound_eq_some hg⟩

theorem end_of_mem_roundsOf (hn : n ≤ ids.length) {g : ReadingRound} (hg : g ∈ t.roundsOf number ids n) :
    g.begin + g.width ≤ t.measurements (ids.take n) := by
  obtain ⟨j, hj, -, -, hbegin, hwidth⟩ := mem_roundsOf hg
  rw [hbegin, hwidth, ← measurements_take_succ (by omega)]
  exact measurements_take_mono hj hn

theorem pos_of_mem_roundsOf (hin : t.Inside ids) (hn : n ≤ ids.length) {g : ReadingRound}
    (hg : g ∈ t.roundsOf number ids n) : 0 < g.width := by
  obtain ⟨j, hj, hne, -, -, hwidth⟩ := mem_roundsOf hg
  obtain ⟨r, hr⟩ := List.exists_mem_of_ne_nil _ hne
  have := hin _ (phaseAt_mem (by omega : j < ids.length)) r hr
  omega

/-- Rounds are in order and apart. -/
theorem pairwise_roundsOf (hnumber : ∀ j k, j < k → number j < number k) (hn : n ≤ ids.length) :
    (t.roundsOf number ids n).Pairwise fun g h => g.round < h.round ∧ g.begin + g.width ≤ h.begin := by
  induction n with
  | zero => exact List.Pairwise.nil
  | succ n ih =>
    rw [roundsOf_succ, List.pairwise_append]
    refine ⟨ih (by omega), ?_, fun g hg h hh => ?_⟩
    · cases readingRound (t.phaseSpec (phaseAt ids n)).m2oSparse (number n)
        (t.measurements (ids.take n)) (t.phaseChunks (phaseAt ids n)).width with
      | none => exact List.Pairwise.nil
      | some g => exact List.pairwise_singleton _ g
    · obtain ⟨-, hround, hbegin, -⟩ := readingRound_eq_some (Option.mem_toList.mp hh)
      obtain ⟨j, hj, -, hg', -, -⟩ := mem_roundsOf hg
      rw [hround, hbegin, hg']
      exact ⟨hnumber j n hj, end_of_mem_roundsOf (by omega) hg⟩

theorem filter_roundsOf {e : Nat} (he : e ≤ n) :
    (t.roundsOf id ids n).filter (fun g => g.round < e) = t.roundsOf id ids e := by
  induction n, he using Nat.le_induction with
  | base =>
    rw [List.filter_eq_self]
    intro g hg
    obtain ⟨j, hj, -, hround, -⟩ := mem_roundsOf hg
    rw [hround]
    exact decide_eq_true hj
  | succ n hle ih =>
    rw [roundsOf_succ, List.filter_append, ih]
    have hnone : (readingRound (t.phaseSpec (phaseAt ids n)).m2oSparse (id n)
        (t.measurements (ids.take n)) (t.phaseChunks (phaseAt ids n)).width).toList.filter
          (fun g => g.round < e) = [] := by
      rw [List.filter_eq_nil_iff]
      intro g hg
      obtain ⟨-, hround, -⟩ := readingRound_eq_some (Option.mem_toList.mp hg)
      rw [hround, decide_eq_true_eq]
      exact not_lt.mpr hle
    rw [hnone, List.append_nil]

theorem named_roundsOf (hin : t.Inside ids) (hn : n ≤ ids.length) (i start : Nat) :
    ((t.roundsOf number ids n).flatMap fun g => g.named i (start + g.begin)).Perm
      (t.named i start (ids.take n)) := by
  induction n with
  | zero => exact List.Perm.refl _
  | succ n ih =>
    rw [roundsOf_succ, List.flatMap_append, take_succ_phaseAt hn, named_append]
    apply (ih (by omega)).append
    have hhere := named_readingRound (hin _ (phaseAt_mem hn)) (number n) (t.measurements (ids.take n)) i
      (start + t.measurements (ids.take n))
    rw [named, named, List.append_nil]
    refine List.Perm.trans (List.Perm.of_eq ?_) hhere
    apply List.flatMap_congr
    intro g hg
    obtain ⟨-, -, hbegin, -⟩ := readingRound_eq_some (Option.mem_toList.mp hg)
    rw [hbegin]

end TemplateData

/-! ## Readings are inside their rounds -/

theorem nonneg_of_checkIndices {n : Nat} {context field : String} {rows seen : List Int}
    (h : checkIndices n context field rows seen = .ok ()) : ∀ v ∈ rows, v = -1 ∨ 0 ≤ v := by
  induction rows generalizing seen with
  | nil => nofun
  | cons v vs ih =>
    unfold checkIndices at h
    intro w hw
    split at h
    · next hv =>
      rcases List.mem_cons.mp hw with rfl | hw
      · exact .inl hv
      · exact ih h w hw
    · simp only [bind_eq_ok, throwIf_eq_ok] at h
      obtain ⟨-, hrange, -, -, h⟩ := h
      rcases List.mem_cons.mp hw with rfl | hw
      · right
        omega
      · exact ih h w hw

theorem mem_of_mem_readings {m2o : List Int} {o : Nat} {r : Nat × Int} (h : r ∈ readings o m2o) :
    r.2 ∈ m2o ∧ r.2 ≠ -1 := by
  induction m2o generalizing o with
  | nil => cases h
  | cons v vs ih =>
    unfold readings at h
    split at h
    · exact ⟨List.mem_cons_of_mem _ (ih h).1, (ih h).2⟩
    · next hv =>
      rcases List.mem_cons.mp h with rfl | h
      · exact ⟨List.mem_cons_self, hv⟩
      · exact ⟨List.mem_cons_of_mem _ (ih h).1, (ih h).2⟩

theorem readings_eq_nil_of_rowMarked {m2o : List Int} (h : ∀ i, DemChunksSpec.rowMarked m2o i = false) :
    readings 0 m2o = [] := by
  by_contra hne
  obtain ⟨r, hr⟩ := List.exists_mem_of_ne_nil _ hne
  have hno := h r.1
  rw [← readsObservable_eq, readsObservable, List.any_eq_false] at hno
  exact hno r hr (by simp)

theorem readings_eq_nil_of_width {m2o : List Int} (h : ReadsInside m2o 0) : readings 0 m2o = [] := by
  by_contra hne
  obtain ⟨r, hr⟩ := List.exists_mem_of_ne_nil _ hne
  have := h r hr
  omega

namespace ExperimentTemplate

variable (t : ExperimentTemplate)

theorem validateReadout_eq_ok : ∀ e ∈ t.spec.phases,
    t.spec.validateReadout t.numObservables e = .ok () := by
  have hval := t.built_steps.1
  simp only [DemChunksSpec.validate, bind_eq_ok] at hval
  obtain ⟨_, -, _, -, _, -, _, -, _, -, _, -, _, hobs, -⟩ := hval
  simp only [DemChunksSpec.validateObservables, bind_eq_ok, t.numObservables_eq, ok_bind] at hobs
  obtain ⟨_, -, _, -, _, -, _, hread, -⟩ := hobs
  exact forM_eq_ok.mp hread

theorem m2oSparse_checked {e : PhaseSpecEntry} (he : e ∈ t.spec.phases) :
    ∀ v ∈ e.spec.m2oSparse, v = -1 ∨ 0 ≤ v := by
  have hval := t.built_steps.1
  simp only [DemChunksSpec.validate, bind_eq_ok] at hval
  obtain ⟨_, -, _, -, _, -, _, -, _, hphases, -⟩ := hval
  have hphase := forM_eq_ok.mp hphases e he
  simp only [DemChunkSpec.validate, bind_eq_ok] at hphase
  obtain ⟨_, -, _, -, _, -, _, -, _, -, _, -, _, -, _, -, _, -, hlist⟩ := hphase
  unfold validateIndexList at hlist
  split at hlist
  · next hnil =>
    rw [hnil]
    intro v hv
    cases hv
  · simp only [bind_eq_ok] at hlist
    obtain ⟨_, -, hindices⟩ := hlist
    exact nonneg_of_checkIndices hindices

/-- The width that a readout is checked against is the one its round has. -/
theorem readoutWidth_eq {e : PhaseSpecEntry} {p : PhaseChunks} {width : Nat}
    (hbuild : buildPhase t.spec e = .ok p) (hwidth : t.spec.readoutWidth e = .ok width) :
    width = p.width := by
  simp only [buildPhase, bind_eq_ok] at hbuild
  obtain ⟨_, -, _, -, _, -, rows, hrows, hok⟩ := hbuild
  have hp := Except.ok.inj hok
  unfold DemChunksSpec.readoutWidth at hwidth
  rw [← hp]
  cases hD : t.spec.hasDSparse with
  | true =>
    rw [hD, if_pos rfl] at hwidth
    simp only [bind_eq_ok] at hwidth
    obtain ⟨_, -, hwidth⟩ := hwidth
    unfold DemChunksSpec.measurementsOf at hwidth
    split at hwidth
    · next n hn =>
      rw [← Except.ok.inj hwidth, PhaseChunks.width, hn]
      rfl
    · cases hwidth
  | false =>
    rw [hD, if_neg (by simp), hrows] at hwidth
    exact (Except.ok.inj hwidth).symm

theorem readsInside {seq : List PhaseId} {R : Nat} {id : PhaseId}
    (hseq : (t.spec.withRounds R).phaseSequence = .ok seq) (hid : id ∈ seq)
    (hkind : id ∈ t.prefixPhases ∨ id ∈ t.suffixPhases ∨ t.repeats = true ∧ id = t.bulk) :
    ReadsInside (t.phaseSpec id).m2oSparse (t.phaseChunks id).width := by
  obtain ⟨e, hfind, hget⟩ := DemChunksSpec.exists_getPhase t.built_steps.1
    (DemChunksSpec.named_of_mem_phaseSequence hseq hid)
  have he := List.mem_of_find?_eq_some hfind
  have hcheck := t.validateReadout_eq_ok e he
  rw [TemplateData.phaseSpec_eq hget]
  intro r hr
  obtain ⟨hmem, hne⟩ := mem_of_mem_readings hr
  have hnonneg := (t.m2oSparse_checked he r.2 hmem).resolve_left hne
  refine ⟨hnonneg, ?_⟩
  unfold DemChunksSpec.validateReadout at hcheck
  split at hcheck
  · next hnil =>
    rw [hnil] at hmem
    cases hmem
  · simp only [bind_eq_ok, throwIf_eq_ok] at hcheck
    obtain ⟨_, -, _, -, width, hwidth, hlast⟩ := hcheck
    have hle := (le_foldl_max (l := e.spec.m2oSparse) (x := (-1 : Int))).2 r.2 hmem
    rw [← t.readoutWidth_eq (t.phaseChunks_built hkind hfind) hwidth]
    omega

end ExperimentTemplate

/-! ## What a node is to do -/

/-- What the node does with a shot of the given phases, however its measurements come and whatever shots
came before. -/
structure ReadsShot (t : TemplateData) (l : LogicalReadout) (seq : List PhaseId) : Prop where
  /-- A value published before the end of the shot is of the rounds before the coverage end. -/
  provisional : ∀ bits s₀ chunks, bits.length = t.measurements seq → ReadoutState.Between l s₀ →
    chunks.flatten <+: bits → ∃ s : ReadoutState, s₀.enqueueAll l chunks = .ok s ∧
      (s.current = true → ∃ e, s.coverage = some e ∧ ∀ i < t.numObservables,
        s.corrections[i]? = some (parity (measured bits) (t.named i 0 (seq.take e))))
  /-- The value at the end is that of the whole shot. -/
  whole : ∀ bits s₀ chunks last, bits.length = t.measurements seq → ReadoutState.Between l s₀ →
    chunks.flatten ++ last = bits → ∃ (s s' : ReadoutState) (fired : Bool) (value : List UInt8),
      s₀.enqueueAll l chunks = .ok s ∧ s.enqueue l last .final = .ok (s', fired) ∧
      executeReadout l bits = .ok value ∧ (s'.flush l).2 = true ∧ (s'.flush l).1.corrections = value ∧
      value.length = t.numObservables ∧
      ∀ i < t.numObservables, value[i]? = some (parity (measured bits) (t.named i 0 seq))

/-- How the rounds of a node stand to the phases of a shot. -/
structure Matches (t : TemplateData) (l : LogicalReadout) (seq : List PhaseId) : Prop where
  placed : Placed l
  numObservables : l.numObservables = t.numObservables
  length_le : l.head + l.tail ≤ t.measurements seq
  whole : ∀ i, (l.reads i (t.measurements seq)).Perm (t.named i 0 seq)
  before : ∀ i, ∀ h ∈ l.headRounds,
    ((l.headRounds.filter fun g => g.round < h.round + 1).flatMap fun g => g.named i g.begin).Perm
      (t.named i 0 (seq.take (h.round + 1)))

theorem take_eq_filter {l : LogicalReadout} {next e : Nat}
    (hcovered : ∀ h ∈ l.headRounds.take next, h.round < e)
    (hfront : ∀ h ∈ l.headRounds.drop next, e ≤ h.round) :
    l.headRounds.take next = l.headRounds.filter fun g => g.round < e := by
  conv_rhs => rw [← List.take_append_drop next l.headRounds]
  rw [List.filter_append]
  have htake : (l.headRounds.take next).filter (fun g => g.round < e) = l.headRounds.take next :=
    List.filter_eq_self.mpr fun g hg => decide_eq_true (hcovered g hg)
  have hdrop : (l.headRounds.drop next).filter (fun g => g.round < e) = [] :=
    List.filter_eq_nil_iff.mpr fun g hg => by simpa using hfront g hg
  rw [htake, hdrop, List.append_nil]

theorem Matches.readsShot {t : TemplateData} {l : LogicalReadout} {seq : List PhaseId}
    (h : Matches t l seq) : ReadsShot t l seq where
  provisional bits s₀ chunks hlength hbetween hpre := by
    obtain ⟨s, hs, hstreaming⟩ := (hbetween.streaming h.placed).enqueueAll h.placed chunks
    rw [List.nil_append] at hstreaming
    refine ⟨s, hs, fun hcurrent => ?_⟩
    obtain ⟨⟨g, hg, hend⟩, hvalue⟩ := hstreaming.value hcurrent
    refine ⟨s.readEnd, ?_, fun i hi => ?_⟩
    · unfold ReadoutState.coverage
      rw [if_neg (by omega)]
    · rw [hvalue i (h.numObservables ▸ hi), hend]
      have hperm := h.before i g hg
      rw [← hend, ← take_eq_filter hstreaming.covered hstreaming.front, hend] at hperm
      rw [← parity_perm hperm]
      congr 1
      apply parity_congr
      intro p hp
      obtain ⟨r, hr, hp⟩ := List.mem_flatMap.mp hp
      have hlt := (ReadingRound.mem_named hp).trans_le (hstreaming.done r hr)
      obtain ⟨rest, rfl⟩ := hpre
      exact (measured_append hlt).symm
  whole bits s₀ chunks last hlength hbetween hbits := by
    obtain ⟨s, hs, hstreaming⟩ := (hbetween.streaming h.placed).enqueueAll h.placed chunks
    rw [List.nil_append] at hstreaming
    have hlast := hstreaming.taken h.placed last
    rw [hbits] at hlast
    have hlong : l.head + l.tail ≤ bits.length := hlength ▸ h.length_le
    obtain ⟨value, hexecute, hvalueLength, hvalue⟩ := executeReadout_eq hlong
    obtain ⟨hflush, hflushLength, hflushed⟩ := hlast.flush h.placed hlong
    refine ⟨s, _, _, value, hs, ReadoutState.enqueue_final hstreaming.ended (hlast.seen ▸ hlong),
      hexecute, hflush, ?_, hvalueLength.trans h.numObservables, fun i hi => ?_⟩
    · apply List.ext_getElem?
      intro i
      by_cases hi : i < l.numObservables
      · exact (hflushed i hi).trans (hvalue i hi).symm
      · rw [List.getElem?_eq_none (hflushLength.trans_le (not_lt.mp hi)),
          List.getElem?_eq_none (hvalueLength.trans_le (not_lt.mp hi))]
    · rw [hvalue i (h.numObservables ▸ hi), hlength, parity_perm (h.whole i)]

/-! ## A chain that visits its repeating phase -/

namespace TemplateData

variable {t : TemplateData}

theorem measurementOffset_prefix {r R : Nat} (hfit : t.prefixRounds + t.suffixRounds ≤ R)
    (hr : r ≤ t.prefixRounds) : t.measurementOffset r R = t.measurements (t.prefixPhases.take r) := by
  unfold measurementOffset sumBefore
  rw [if_neg (by omega), show r - (R - t.suffixRounds) = 0 by omega]
  simp [measurements, sumOf]

/-- Measurements before a round of the suffix. -/
theorem measurementOffset_suffix {j R : Nat} (hfit : t.prefixRounds + t.suffixRounds ≤ R)
    (hfix : t.repeats = false → R = t.prefixRounds) :
    t.measurementOffset (R - t.suffixRounds + j) R = t.measurements t.prefixPhases +
      t.measurements (List.replicate (R - t.prefixRounds - t.suffixRounds) t.bulk) +
      t.measurements (t.suffixPhases.take j) := by
  have hbulk : (t.measurements (List.replicate (R - t.prefixRounds - t.suffixRounds) t.bulk) : Int) =
      (((R - t.suffixRounds : Nat) : Int) - t.prefixRounds) * (t.phaseChunks t.bulk).width := by
    unfold measurements sumOf
    rw [List.map_replicate, List.sum_replicate_nat, show R - t.suffixRounds =
      t.prefixRounds + (R - t.prefixRounds - t.suffixRounds) by omega]
    push_cast
    ring
  have hpre : t.prefixPhases.take (R - t.suffixRounds + j) = t.prefixPhases :=
    List.take_of_length_le (by
      change t.prefixRounds ≤ _
      omega)
  unfold measurementOffset sumBefore
  rw [hpre, hbulk, Nat.add_sub_cancel_left, Nat.min_eq_right (Nat.le_add_right _ j)]
  change _ = (t.sumOf PhaseChunks.width t.prefixPhases : Int) + _ +
    (t.sumOf PhaseChunks.width (t.suffixPhases.take j) : Int)
  congr 2
  split
  · rfl
  · next hnot =>
    -- no bulk round
    have hzero : R - t.suffixRounds = t.prefixRounds := by
      by_contra hne
      have hrep : t.repeats = true := by
        by_contra hno
        have := hfix (by simpa using hno)
        omega
      exact hnot ⟨hrep, by omega⟩
    rw [hzero, sub_self, zero_mul]

end TemplateData

namespace ExperimentTemplate

variable (t : ExperimentTemplate)

/-- The phases of a shot: the prefix, the repeated phase and the suffix. -/
theorem phases_split (hon : t.spec.OnChain) {R : Nat} {seq : List PhaseId} (hR : t.Admits R)
    (hseq : (t.spec.withRounds R).phaseSequence = .ok seq) :
    seq = t.prefixPhases ++ List.replicate (R - t.prefixRounds - t.suffixRounds) t.bulk ++
      t.suffixPhases := by
  cases hrep : t.repeats with
  | true =>
    obtain ⟨-, hm, har⟩ := t.around hrep hon
    have hmin := hR.1
    rw [har.rounds R (by omega) (by omega)] at hseq
    exact (Except.ok.inj hseq).symm
  | false =>
    have hphases := hseq
    rw [t.phases_eq hon hR] at hphases
    obtain ⟨hsuffix, -⟩ := t.shape.fixed hrep
    have hlength := t.eq_prefixRounds hR hrep
    have hmap : (List.range t.prefixRounds).map (fun j => t.phase j R) = t.prefixPhases := by
      rw [← map_getD_range t.prefixPhases ⟨0⟩]
      apply List.map_congr_left
      intro j hj
      exact t.phase_of_lt (List.mem_range.mp hj)
    rw [← Except.ok.inj hphases, hsuffix, List.append_nil,
      show R - t.prefixRounds - t.suffixRounds = 0 by omega, List.replicate_zero, List.append_nil, hlength,
      ← hlength]
    exact hlength ▸ hmap

theorem readoutTail_eq : t.readoutTail =
    List.range' (t.readoutProbe - t.suffixRounds) t.suffixRounds := by
  unfold TemplateData.readoutTail
  cases hrep : t.repeats with
  | true => rfl
  | false =>
    have hzero : t.suffixRounds = 0 := by
      rw [TemplateData.suffixRounds, (t.shape.fixed hrep).1, List.length_nil]
    rw [hzero]
    rfl

theorem admits_readoutProbe : t.Admits t.readoutProbe := by
  unfold TemplateData.readoutProbe
  split
  · next hrep => exact t.admits_of_le hrep (Nat.le_add_right _ _)
  · exact t.admits_minRounds

variable {t} {seq : List PhaseId} {R : Nat}

def chainReadout (t : TemplateData) : LogicalReadout where
  numObservables := t.numObservables
  head := t.measurements t.prefixPhases
  tail := t.measurements t.suffixPhases
  headRounds := t.roundsOf id t.prefixPhases t.prefixRounds
  tailRounds := t.roundsOf (fun _ => 0) t.suffixPhases t.suffixRounds
  completion := (List.range t.numObservables).map t.completion

theorem buildReadout_chain (hon : t.spec.OnChain) (hreads : t.spec.hasReadout = true)
    (hpre : t.Inside t.prefixPhases) (hsuffix : t.Inside t.suffixPhases) :
    buildReadout t.toTemplateData = .ok (chainReadout t.toTemplateData) := by
  have hadmits := t.admits_readoutProbe
  have hfit := t.rounds_fit hon hadmits
  have hfix := t.eq_prefixRounds hadmits
  have htailLength : t.readoutTail.length = t.suffixRounds := by
    rw [t.readoutTail_eq, List.length_range']
  have hoffset : ∀ r ≤ t.prefixRounds, t.measurementOffset r t.readoutProbe =
      t.measurements (t.prefixPhases.take r) := fun r hr => t.measurementOffset_prefix hfit hr
  -- the prefix rounds, one phase each, at the measurements of those before them
  have hhead : (List.range t.prefixRounds).mapM (fun r => addReadingRound
      (t.readoutOf r t.readoutProbe) r (sizeT (t.measurementOffset r t.readoutProbe))
      (sizeT (t.measurementOffset (r + 1) t.readoutProbe - t.measurementOffset r t.readoutProbe))) =
      .ok ((List.range t.prefixRounds).map fun r => readingRound
        (t.phaseSpec (TemplateData.phaseAt t.prefixPhases r)).m2oSparse (id r)
        (t.measurements (t.prefixPhases.take r))
        (t.phaseChunks (TemplateData.phaseAt t.prefixPhases r)).width) := by
    apply mapM_eq_ok_map
    intro r hr
    have hr := List.mem_range.mp hr
    rw [hoffset r (by omega), hoffset (r + 1) hr, TemplateData.measurements_take_succ hr]
    push_cast
    rw [add_sub_cancel_left, sizeT_natCast, sizeT_natCast, TemplateData.readoutOf, t.phase_of_lt hr]
    exact addReadingRound_eq (hpre _ (TemplateData.phaseAt_mem hr)) _ _
  -- the bulk of the probe lies before every suffix round and drops out of the differences
  have hsuffixOffset : ∀ j, t.measurementOffset (t.readoutProbe - t.suffixRounds + j) t.readoutProbe =
      t.measurements t.prefixPhases + t.measurements (List.replicate
        (t.readoutProbe - t.prefixRounds - t.suffixRounds) t.bulk) +
        t.measurements (t.suffixPhases.take j) := fun j => t.measurementOffset_suffix hfit hfix
  have hfirst := hsuffixOffset 0
  rw [Nat.add_zero, List.take_zero, TemplateData.measurements_nil, Nat.cast_zero, add_zero] at hfirst
  -- the tail is the suffix rounds, counted from the first of them
  have htail : t.readoutTail.mapM (fun r => addReadingRound (t.readoutOf r t.readoutProbe) 0
      (sizeT (t.measurementOffset r t.readoutProbe -
        t.measurementOffset (t.readoutProbe - t.readoutTail.length) t.readoutProbe))
      (sizeT (t.measurementOffset (r + 1) t.readoutProbe - t.measurementOffset r t.readoutProbe))) =
      .ok (t.readoutTail.map fun r => readingRound
        (t.phaseSpec (TemplateData.phaseAt t.suffixPhases (r - (t.readoutProbe - t.suffixRounds)))).m2oSparse
        0 (t.measurements (t.suffixPhases.take (r - (t.readoutProbe - t.suffixRounds))))
        (t.phaseChunks (TemplateData.phaseAt t.suffixPhases
          (r - (t.readoutProbe - t.suffixRounds)))).width) := by
    apply mapM_eq_ok_map
    intro r hr
    rw [t.readoutTail_eq, List.mem_range'_1] at hr
    obtain ⟨j, rfl⟩ := Nat.exists_eq_add_of_le hr.1
    have hj : j < t.suffixPhases.length := by
      have : t.suffixRounds = t.suffixPhases.length := rfl
      omega
    have hphase : t.phase (t.readoutProbe - t.suffixRounds + j) t.readoutProbe =
        TemplateData.phaseAt t.suffixPhases j := by
      unfold TemplateData.phase
      rw [if_neg (by omega), if_neg (by omega), Nat.add_sub_cancel_left]
      rfl
    rw [htailLength, Nat.add_assoc, hsuffixOffset j, hsuffixOffset (j + 1), hfirst, add_sub_cancel_left,
      Nat.add_sub_cancel_left, TemplateData.measurements_take_succ hj, TemplateData.readoutOf, hphase]
    push_cast
    rw [← add_assoc, add_sub_cancel_left, sizeT_natCast, sizeT_natCast]
    exact addReadingRound_eq (hsuffix _ (TemplateData.phaseAt_mem hj)) _ _
  have hend : t.measurementOffset t.readoutProbe t.readoutProbe = t.measurements t.prefixPhases +
      t.measurements (List.replicate (t.readoutProbe - t.prefixRounds - t.suffixRounds) t.bulk) +
      t.measurements t.suffixPhases := by
    have hlast := hsuffixOffset t.suffixRounds
    rwa [Nat.sub_add_cancel (by omega), TemplateData.suffixRounds, List.take_length] at hlast
  have hhead' := hoffset t.prefixRounds (Nat.le_refl _)
  rw [TemplateData.prefixRounds, List.take_length] at hhead'
  -- what is built from the two lists is the read-out of the chain
  unfold buildReadout
  rw [throwIf_of_not (by simp [hreads]), ok_bind]
  dsimp only
  rw [hhead, ok_bind, htail, ok_bind, htailLength]
  refine congrArg Except.ok ?_
  unfold chainReadout
  congr 1
  · exact (congrArg sizeT hhead').trans (sizeT_natCast _)
  · rw [hend, hfirst, add_sub_cancel_left]
    exact sizeT_natCast _
  · rw [List.filterMap_map]
    rfl
  · rw [List.filterMap_map, t.readoutTail_eq, List.range'_eq_map_range, List.filterMap_map]
    unfold TemplateData.roundsOf
    apply List.filterMap_congr
    intro j _
    simp only [Function.comp_apply, id_eq, Nat.add_sub_cancel_left]

/-- The node's rounds lie in a shot as its phases do. -/
theorem matches_chain (hpre : t.Inside t.prefixPhases) (hsuffix : t.Inside t.suffixPhases)
    {n : Nat} (hbulk : ∀ id ∈ List.replicate n t.bulk, readings 0 (t.phaseSpec id).m2oSparse = []) :
    Matches t.toTemplateData (chainReadout t.toTemplateData)
      (t.prefixPhases ++ List.replicate n t.bulk ++ t.suffixPhases) where
  placed := by
    have hpairs : (t.roundsOf id t.prefixPhases t.prefixRounds).Pairwise fun g h =>
        g.round < h.round ∧ g.begin + g.width ≤ h.begin :=
      TemplateData.pairwise_roundsOf (fun _ _ hlt => hlt) (Nat.le_refl _)
    refine ⟨hpairs.imp And.left, hpairs.imp And.right, fun g hg => ?_, fun g hg => ?_, fun g hg => ?_⟩
    · have hend := TemplateData.end_of_mem_roundsOf (Nat.le_refl _) hg
      rwa [List.take_length] at hend
    · have hend := TemplateData.end_of_mem_roundsOf (Nat.le_refl _) hg
      rwa [List.take_length] at hend
    · exact TemplateData.pos_of_mem_roundsOf hpre (Nat.le_refl _) hg
  numObservables := rfl
  length_le := by
    rw [TemplateData.measurements_append, TemplateData.measurements_append]
    change t.measurements t.prefixPhases + t.measurements t.suffixPhases ≤ _
    omega
  whole i := by
    rw [TemplateData.named_append, TemplateData.named_append, TemplateData.named_eq_nil _ hbulk,
      List.append_nil]
    -- the head reads the prefix phases, the tail those of the suffix
    have hhead : ((t.roundsOf id t.prefixPhases t.prefixRounds).flatMap fun g =>
        g.named i (0 + g.begin)).Perm _ := TemplateData.named_roundsOf hpre (Nat.le_refl _) i 0
    have htail : ((t.roundsOf (fun _ => 0) t.suffixPhases t.suffixRounds).flatMap fun g => g.named i
        (0 + t.measurements (t.prefixPhases ++ List.replicate n t.bulk) + g.begin)).Perm _ :=
      TemplateData.named_roundsOf hsuffix (Nat.le_refl _) i _
    rw [TemplateData.prefixRounds, List.take_length] at hhead
    rw [TemplateData.suffixRounds, List.take_length] at htail
    unfold LogicalReadout.reads
    apply List.Perm.append
    · simp only [Nat.zero_add] at hhead
      exact hhead
    · refine List.Perm.trans (List.Perm.of_eq ?_) htail
      rw [TemplateData.measurements_append _ t.suffixPhases]
      apply List.flatMap_congr
      intro g _
      congr 2
      change _ - t.measurements t.suffixPhases = _
      omega
  before i g hg := by
    obtain ⟨j, hj, -, hround, -, -⟩ := TemplateData.mem_roundsOf hg
    have hle : g.round + 1 ≤ t.prefixPhases.length := by
      rw [hround]
      exact hj
    have hnamed : ((t.roundsOf id t.prefixPhases (g.round + 1)).flatMap fun g =>
        g.named i (0 + g.begin)).Perm _ := TemplateData.named_roundsOf hpre hle i 0
    simp only [Nat.zero_add] at hnamed
    rw [List.append_assoc, List.take_append_of_le_length hle]
    change (((t.roundsOf id t.prefixPhases t.prefixPhases.length).filter _).flatMap _).Perm _
    rwa [TemplateData.filter_roundsOf hle]

/-- On a chain that visits its repeating phase the node reads every shot. -/
theorem readsShot_chain (hon : t.spec.OnChain) (hreads : t.spec.hasReadout = true) (hR : t.Admits R)
    (hseq : (t.spec.withRounds R).phaseSequence = .ok seq) :
    ∃ l, buildReadout t.toTemplateData = .ok l ∧ ReadsShot t.toTemplateData l seq := by
  have hsplit := t.phases_split hon hR hseq
  have hpre : t.Inside t.prefixPhases := fun id hid =>
    t.readsInside hseq (hsplit ▸ by simp [hid]) (.inl hid)
  have hsuffix : t.Inside t.suffixPhases := fun id hid =>
    t.readsInside hseq (hsplit ▸ by simp [hid]) (.inr (.inl hid))
  refine ⟨_, buildReadout_chain hon hreads hpre hsuffix, ?_⟩
  rw [hsplit]
  apply (matches_chain hpre hsuffix fun id hid => ?_).readsShot
  obtain ⟨hn, rfl⟩ := List.mem_replicate.mp hid
  have hrep : t.repeats = true := by
    by_contra hno
    have := t.eq_prefixRounds hR (by simpa using hno)
    omega
  exact readings_eq_nil_of_rowMarked (t.bulk_reads_nothing hon hrep)

/-! ## A chain that does not -/

/-- The whole chain is laid out before the repeating phase and again after it. -/
structure Aside (t : ExperimentTemplate) (seq : List PhaseId) : Prop where
  repeats : t.repeats = true
  before : t.prefixPhases = seq
  after : t.suffixPhases = seq
  length : t.minRounds = seq.length
  two_le : 2 ≤ seq.length

theorem aside (hoff : ¬ t.spec.OnChain) (hseq : (t.spec.withRounds R).phaseSequence = .ok seq) :
    t.Aside seq := by
  obtain ⟨-, hpre⟩ := t.offChain hoff hseq
  have hrep : t.repeats = true := by
    by_contra hno
    exact hoff (t.onChain_of_room fun hyes => absurd hyes hno)
  have hwhole : t.prefixRounds = t.minRounds ∧ t.suffixPhases = t.prefixPhases := by
    rcases t.shape.split hrep with hroom | hwhole
    · exact absurd (t.onChain_of_room fun _ => hroom) hoff
    · exact hwhole
  have hlength : t.minRounds = seq.length := by
    rw [← hwhole.1, TemplateData.prefixRounds, hpre]
  exact ⟨hrep, hpre, hwhole.2.trans hpre, hlength, hlength ▸ t.shape.two_le⟩

/-! ## The measurements of its probe -/

/-- Every round of such a shot but the last is as wide as the repeating phase. -/
theorem Aside.measurements_take (h : t.Aside seq) {j : Nat} (hj : j + 1 ≤ seq.length) :
    t.measurements (seq.take j) = j * (t.phaseChunks t.bulk).width := by
  induction j with
  | zero => simp
  | succ j ih =>
    have hcheck := t.built_steps.2.2.2.1
    have hsame := forM_eq_ok.mp hcheck j (List.mem_range.mpr (by
      rw [h.after]
      omega))
    rw [throwIf_eq_ok, not_and, not_not, h.after] at hsame
    have hwidth : (t.phaseChunks (TemplateData.phaseAt seq j)).width = (t.phaseChunks t.bulk).width :=
      congrArg (Option.getD · 0) (hsame h.repeats)
    rw [TemplateData.measurements_take_succ (by omega), ih (by omega), hwidth]
    ring

/-- The measurements of such a shot: its rounds but the last, and the last. -/
theorem Aside.measurements_eq (h : t.Aside seq) : t.measurements seq =
    (seq.length - 1) * (t.phaseChunks t.bulk).width +
      (t.phaseChunks (TemplateData.phaseAt seq (seq.length - 1))).width := by
  have htwo := h.two_le
  have hlt : seq.length - 1 < seq.length := by omega
  have hlast := TemplateData.measurements_take_succ (t := t.toTemplateData) hlt
  rwa [Nat.sub_add_cancel (by omega), List.take_length, h.measurements_take (by omega)] at hlast

/-- The shot the constructor looks at is laid out past its end. -/
theorem Aside.offsets (h : t.Aside seq) :
    t.readoutProbe = seq.length + 2 ∧ t.prefixRounds = seq.length ∧ t.suffixRounds = seq.length ∧
    t.measurementOffset seq.length (seq.length + 2) =
      t.measurements seq + t.measurements (seq.take (seq.length - 2)) ∧
    t.measurementOffset (seq.length + 2) (seq.length + 2) = t.measurements seq +
      (2 - (seq.length : Int)) * (t.phaseChunks t.bulk).width + t.measurements seq ∧
    t.measurementOffset 2 (seq.length + 2) = t.measurements (seq.take 2) := by
  have htwo := h.two_le
  have hp : t.prefixRounds = seq.length := congrArg List.length h.before
  have hs : t.suffixRounds = seq.length := congrArg List.length h.after
  refine ⟨by rw [TemplateData.readoutProbe, if_pos h.repeats, h.length], hp, hs, ?_, ?_, ?_⟩
  · unfold TemplateData.measurementOffset TemplateData.sumBefore
    rw [hp, hs, h.before, h.after, if_neg (by omega), List.take_length,
      show seq.length - (seq.length + 2 - seq.length) = seq.length - 2 by omega, add_zero]
    rfl
  · unfold TemplateData.measurementOffset TemplateData.sumBefore
    rw [hp, hs, h.before, h.after, if_pos ⟨h.repeats, by omega⟩, List.take_of_length_le (by omega),
      show seq.length + 2 - (seq.length + 2 - seq.length) = seq.length by omega, List.take_length,
      show min (seq.length + 2) (seq.length + 2 - seq.length) = 2 by omega]
    rfl
  · unfold TemplateData.measurementOffset TemplateData.sumBefore
    rw [hp, hs, h.before, h.after, if_neg (by omega),
      show 2 - (seq.length + 2 - seq.length) = 0 by omega, add_zero]
    simp [TemplateData.measurements, TemplateData.sumOf]

/-- The node asks for more measurements than the shot has, unless it has none. -/
theorem Aside.lt_head_add_tail (h : t.Aside seq) {l : LogicalReadout}
    (hbuild : buildReadout t.toTemplateData = .ok l) (hpos : 0 < t.measurements seq) :
    t.measurements seq < l.head + l.tail := by
  obtain ⟨hprobe, hp, hs, hhead, hend, hfirst⟩ := h.offsets
  have htwo := h.two_le
  simp only [buildReadout, bind_eq_ok] at hbuild
  obtain ⟨_, -, _, -, _, -, hl⟩ := hbuild
  have hl := Except.ok.inj hl
  have htail : t.readoutTail.length = seq.length := by rw [t.readoutTail_eq, List.length_range', hs]
  -- the head asks for the whole shot and for what the probe has behind it
  have hlhead : l.head = t.measurements seq + t.measurements (seq.take (seq.length - 2)) := by
    rw [← hl]
    change sizeT (t.measurementOffset t.prefixRounds t.readoutProbe) = _
    rw [hp, hprobe, hhead, ← Nat.cast_add, sizeT_natCast]
  have hfirstLe : t.measurements (seq.take 2) ≤ t.measurements seq := by
    have hmono := TemplateData.measurements_take_mono (t := t.toTemplateData) htwo (Nat.le_refl _)
    rwa [List.take_length] at hmono
  have hwide := h.measurements_eq
  set b := (t.phaseChunks t.bulk).width
  set e := (t.phaseChunks (TemplateData.phaseAt seq (seq.length - 1))).width
  -- the tail asks for at least a bulk round and the last round
  have htailInt : t.measurements seq + (2 - (seq.length : Int)) * b + t.measurements seq -
      t.measurements (seq.take 2) ≥ b + e := by
    have hcast : (t.measurements seq : Int) = ((seq.length : Int) - 1) * b + e := by
      rw [hwide]
      push_cast [show 1 ≤ seq.length by omega]
      ring
    linarith
  have hone : 0 < b + e := by
    by_contra hzero
    have hb : b = 0 := by omega
    have he : e = 0 := by omega
    rw [hb, he, Nat.mul_zero] at hwide
    omega
  have hltail : (l.tail : Int) = t.measurements seq + (2 - (seq.length : Int)) * b +
      t.measurements seq - t.measurements (seq.take 2) := by
    rw [← hl]
    change (sizeT (t.measurementOffset t.readoutProbe t.readoutProbe -
      t.measurementOffset (t.readoutProbe - t.readoutTail.length) t.readoutProbe) : Int) = _
    rw [hprobe, htail, Nat.add_sub_cancel_left, hend, hfirst, sizeT_of_nonneg]
    omega
  clear * - hlhead htailInt hone hltail
  omega

/-- A node that reads nothing suits a shot without measurements. -/
theorem Aside.readsShot (h : t.Aside seq) (hreads : t.spec.hasReadout = true)
    (hseq : (t.spec.withRounds R).phaseSequence = .ok seq) (hzero : t.measurements seq = 0) :
    ∃ l, buildReadout t.toTemplateData = .ok l ∧ ReadsShot t.toTemplateData l seq := by
  obtain ⟨hprobe, hp, hs, hhead, hend, hfirst⟩ := h.offsets
  have htwo := h.two_le
  have htail : t.readoutTail.length = seq.length := by rw [t.readoutTail_eq, List.length_range', hs]
  -- every prefix of the shot measures nothing, hence neither does the bulk
  have htakeZero : ∀ j ≤ seq.length, t.measurements (seq.take j) = 0 := by
    intro j hj
    have hmono := TemplateData.measurements_take_mono (t := t.toTemplateData) hj (Nat.le_refl _)
    rw [List.take_length] at hmono
    omega
  have hbulk : (t.phaseChunks t.bulk).width = 0 := by
    have hone := h.measurements_take (j := 1) (by omega)
    rw [htakeZero 1 (by omega)] at hone
    omega
  -- a phase of no measurements has no readings
  have hnone : ∀ id ∈ seq, readings 0 (t.phaseSpec id).m2oSparse = [] := by
    intro id hid
    obtain ⟨j, hj, rfl⟩ := List.getElem_of_mem hid
    have hphase : TemplateData.phaseAt seq j = seq[j] := by
      rw [TemplateData.phaseAt, List.getD_eq_getElem?_getD, List.getElem?_eq_getElem hj]
      rfl
    have hwidth := TemplateData.measurements_take_succ (t := t.toTemplateData) hj
    rw [htakeZero (j + 1) hj, htakeZero j hj.le, hphase, Nat.zero_add] at hwidth
    have hinside := t.readsInside hseq hid (.inl (h.before ▸ hid))
    rw [← hwidth] at hinside
    exact readings_eq_nil_of_width hinside
  -- so no round of the probe is kept, in the prefix or in the tail
  have hround : ∀ r, t.phase r t.readoutProbe ∈ seq → ∀ round begin width,
      addReadingRound (t.readoutOf r t.readoutProbe) round begin width = .ok none := by
    intro r hr round begin width
    have hnil := hnone _ hr
    unfold TemplateData.readoutOf addReadingRound
    rw [hnil]
    rfl
  have hheadRounds : ∀ r ∈ List.range t.prefixRounds, t.phase r t.readoutProbe ∈ seq := by
    intro r hr
    have hr := List.mem_range.mp hr
    rw [t.phase_of_lt hr, ← h.before]
    exact TemplateData.phaseAt_mem hr
  have htailRounds : ∀ r ∈ t.readoutTail, t.phase r t.readoutProbe ∈ seq := by
    intro r hr
    rw [t.readoutTail_eq, List.mem_range'_1, hprobe, hs] at hr
    by_cases hlt : r < t.prefixRounds
    · exact hheadRounds r (List.mem_range.mpr hlt)
    · have hphase : t.phase r t.readoutProbe = TemplateData.phaseAt seq (r - 2) := by
        unfold TemplateData.phase
        rw [if_neg hlt, hprobe, hs, if_neg (by omega), h.after,
          show seq.length + 2 - seq.length = 2 by omega]
        rfl
      rw [hphase]
      exact TemplateData.phaseAt_mem (by clear * - hr; omega)
  -- what is built reads nothing and begins at measurement 0
  have hbuild : buildReadout t.toTemplateData = .ok
      ⟨t.numObservables, 0, 0, [], [], (List.range t.numObservables).map t.completion⟩ := by
    unfold buildReadout
    rw [throwIf_of_not (by simp [hreads]), ok_bind]
    dsimp only
    rw [mapM_eq_ok_map fun r hr => hround r (hheadRounds r hr) _ _ _, ok_bind,
      mapM_eq_ok_map fun r hr => hround r (htailRounds r hr) _ _ _, ok_bind]
    refine congrArg Except.ok ?_
    congr 1
    · rw [hp, hprobe, hhead, hzero, htakeZero _ (by omega)]
      rfl
    · rw [hprobe, htail, Nat.add_sub_cancel_left, hend, hfirst, hzero, htakeZero 2 htwo, hbulk]
      simp [sizeT]
    · simp
    · simp
  refine ⟨_, hbuild, Matches.readsShot ⟨⟨List.Pairwise.nil, List.Pairwise.nil, by simp, by simp, by simp⟩, rfl,
    Nat.zero_le _, fun i => ?_, by simp⟩⟩
  rw [TemplateData.named_eq_nil 0 hnone]
  exact List.Perm.refl _

theorem Aside.not_readsShot (h : t.Aside seq) (hpos : 0 < t.measurements seq) :
    ¬ ∃ l, buildReadout t.toTemplateData = .ok l ∧ ReadsShot t.toTemplateData l seq := by
  rintro ⟨l, hbuild, hreads⟩
  have hshort := h.lt_head_add_tail hbuild hpos
  obtain ⟨-, -, -, value, -, -, hexecute, -⟩ := hreads.whole (List.replicate (t.measurements seq) 0)
    _ [] (List.replicate (t.measurements seq) 0) List.length_replicate .construct rfl
  unfold executeReadout at hexecute
  simp only [bind_eq_ok, throwIf_eq_ok, List.length_replicate] at hexecute
  exact hexecute.choose_spec.1 hshort

end ExperimentTemplate

/-! ## When a node reads a shot -/

/-- The node reads a shot, however its measurements come, exactly when the chain visits the repeating
phase or the shot has no measurements. -/
theorem readsShot_iff (t : ExperimentTemplate) (hreads : t.spec.hasReadout = true) {R : Nat}
    {seq : List PhaseId} (hR : t.Admits R)
    (hseq : (t.spec.withRounds R).phaseSequence = .ok seq) :
    (∃ l, buildReadout t.toTemplateData = .ok l ∧ ReadsShot t.toTemplateData l seq) ↔
      t.spec.OnChain ∨ t.measurements seq = 0 := by
  constructor
  · intro hshot
    by_contra hno
    rw [not_or] at hno
    exact (ExperimentTemplate.aside hno.1 hseq).not_readsShot (Nat.pos_of_ne_zero hno.2) hshot
  · rintro (hon | hzero)
    · exact ExperimentTemplate.readsShot_chain hon hreads hR hseq
    · by_cases hon : t.spec.OnChain
      · exact ExperimentTemplate.readsShot_chain hon hreads hR hseq
      · exact (ExperimentTemplate.aside hon hseq).readsShot hreads hseq hzero

def readPhase : DemChunkSpec := { memoryPhase with m2oSparse := [0, -1] }

def readTemplate : ExperimentTemplate where
  toTemplateData := (buildTemplate { memorySpec with
    phases := [⟨⟨10⟩, memoryPhase⟩, ⟨⟨11⟩, memoryPhase⟩, ⟨⟨12⟩, readPhase⟩] }).toOption.get
      (by decide +kernel)
  built := by decide +kernel

theorem readsShot_iff_memory :
    (∃ l, buildReadout readTemplate.toTemplateData = .ok l ∧
      ReadsShot readTemplate.toTemplateData l [⟨10⟩, ⟨11⟩, ⟨11⟩, ⟨12⟩]) ↔
    readTemplate.spec.OnChain ∨ readTemplate.measurements [⟨10⟩, ⟨11⟩, ⟨11⟩, ⟨12⟩] = 0 :=
  readsShot_iff readTemplate (by decide +kernel) (R := 4) (by decide +kernel) (by decide +kernel)

def asideReadTemplate : ExperimentTemplate where
  toTemplateData := (buildTemplate {
    phases := [⟨⟨10⟩, memoryPhase⟩, ⟨⟨11⟩, readPhase⟩, ⟨⟨12⟩, memoryPhase⟩]
    connections := [⟨⟨10⟩, ⟨11⟩⟩, ⟨⟨12⟩, ⟨12⟩⟩]
    seam := ⟨⟨1⟩, ⟨0⟩⟩ }).toOption.get (by decide +kernel)
  built := by decide +kernel

/-- The node asks for four measurements of a shot that has two. -/
theorem not_readsShot : ¬ ∀ (t : ExperimentTemplate) (R : Nat) (seq : List PhaseId),
    t.spec.hasReadout = true → t.Admits R → (t.spec.withRounds R).phaseSequence = .ok seq →
      ∃ l, buildReadout t.toTemplateData = .ok l ∧ ReadsShot t.toTemplateData l seq := by
  intro hall
  have hseq : (asideReadTemplate.spec.withRounds 2).phaseSequence = .ok [⟨10⟩, ⟨11⟩] := by
    decide +kernel
  have haside := ExperimentTemplate.aside (t := asideReadTemplate) (by decide +kernel) hseq
  exact haside.not_readsShot (by decide +kernel)
    (hall asideReadTemplate 2 _ (by decide +kernel) (by decide +kernel) hseq)

end CudaqQec
