import CudaqQec.Node.LogicalReadout

/-!
# Reading follows flipping

`validate_readout_order` looks at the shortest chain of a template. In a shot of any length it means that
no round flips an observable after the round that completes it (`flips_le_completion`). The reading rounds
of a node are in order, and none that reads an observable comes after its completion
(`buildReadout_sound`).
-/

namespace CudaqQec

open Checked DemChunksSpec

/-! ## Rows that are read -/

theorem le_of_mem_readings {m2o : List Int} {o : Nat} {r : Nat × Int} (h : r ∈ readings o m2o) :
    o ≤ r.1 := by
  induction m2o generalizing o with
  | nil => cases h
  | cons v vs ih =>
    unfold readings at h
    split at h
    · exact Nat.le_of_succ_le (ih h)
    · rcases List.mem_cons.mp h with rfl | h
      · exact Nat.le_refl _
      · exact ih h

/-- Row `i` from observable `o` on has an entry exactly if a reading of it is found. -/
theorem readings_any (m2o : List Int) (o i : Nat) :
    (readings o m2o).any (fun r => r.1 = o + i) = rowMarked m2o i := by
  unfold rowMarked
  induction m2o generalizing o i with
  | nil => cases i <;> simp [readings, terminatedRows]
  | cons v vs ih =>
    unfold readings terminatedRows
    by_cases hv : v = -1
    · rw [if_pos hv, if_pos hv]
      -- at a terminator the row has no entry, and the rows behind it are counted from the next
      cases i with
      | zero =>
        have hnone : (readings (o + 1) vs).any (fun r => decide (r.1 = o + 0)) = false := by
          apply List.any_eq_false.mpr
          intro r hr
          have := le_of_mem_readings hr
          simp
          omega
        rw [hnone]
        rfl
      | succ i =>
        have := ih (o + 1) i
        rw [show o + 1 + i = o + (i + 1) by omega] at this
        simpa using this
    · rw [if_neg hv, if_neg hv, List.any_cons]
      cases i with
      | zero =>
        split <;> simp
      | succ i =>
        have hne : decide (o = o + (i + 1)) = false := decide_eq_false (by omega)
        rw [hne, Bool.false_or, ih o (i + 1)]
        split
        · rename_i hnil
          rw [hnil]
          simp
        · rename_i r rs hcons
          rw [hcons]
          simp

theorem readsObservable_eq (m2o : List Int) (i : Nat) : readsObservable m2o i = rowMarked m2o i := by
  have := readings_any m2o 0 i
  rw [Nat.zero_add] at this
  exact this

/-! ## The completion round -/

variable {t : TemplateData} {l : LogicalReadout} {i c r R : Nat}

theorem foldl_last (reads : Nat → Bool) (rs : List Nat) (last : Option Nat) :
    rs.foldl (fun last r => if reads r then some r else last) last =
      (rs.filter reads).getLast?.or last := by
  induction rs generalizing last with
  | nil => rfl
  | cons r rs ih =>
    rw [List.foldl_cons, ih, List.filter_cons]
    split
    · rw [List.getLast?_cons]
      cases (rs.filter reads).getLast? <;> rfl
    · rfl

theorem foldl_none (reads : Nat → Bool) (rs : List Nat) (last : Option Nat) :
    rs.foldl (fun last r => if reads r then none else last) last =
      if rs.any reads then none else last := by
  induction rs generalizing last with
  | nil => rfl
  | cons r rs ih =>
    rw [List.foldl_cons, ih, List.any_cons]
    cases reads r
    · rfl
    · simp

/-- A completed observable is last read at its completion, and not by the suffix. -/
theorem completion_spec (h : t.completion i = some c) :
    c < t.prefixRounds ∧ readsObservable (t.readoutOf c t.readoutProbe) i = true ∧
    (∀ r < t.prefixRounds, readsObservable (t.readoutOf r t.readoutProbe) i = true → r ≤ c) ∧
    ∀ r ∈ t.readoutTail, readsObservable (t.readoutOf r t.readoutProbe) i = false := by
  unfold TemplateData.completion at h
  rw [foldl_last fun r => readsObservable (t.readoutOf r t.readoutProbe) i,
    foldl_none fun r => readsObservable (t.readoutOf r t.readoutProbe) i, Option.or_none] at h
  split at h
  · cases h
  · rename_i hnone
    have hmem := List.mem_of_getLast? h
    refine ⟨List.mem_range.mp (List.mem_filter.mp hmem).1, (List.mem_filter.mp hmem).2,
      fun r hr hreads => ?_, fun r hr => ?_⟩
    · have hr' : r ∈ (List.range t.prefixRounds).filter
          fun r => readsObservable (t.readoutOf r t.readoutProbe) i :=
        List.mem_filter.mpr ⟨List.mem_range.mpr hr, hreads⟩
      have hsorted := (List.pairwise_lt_range (n := t.prefixRounds)).filter
        fun r => readsObservable (t.readoutOf r t.readoutProbe) i
      obtain ⟨init, hinit⟩ := List.getLast?_eq_some_iff.mp h
      rw [hinit] at hsorted hr'
      rcases List.mem_append.mp hr' with hr' | hr'
      · exact Nat.le_of_lt ((List.pairwise_append.mp hsorted).2.2 r hr' c (List.mem_singleton_self c))
      · exact Nat.le_of_eq (List.mem_singleton.mp hr')
    · exact Bool.eq_false_iff.mpr (List.any_eq_false.mp (Bool.eq_false_iff.mpr hnone) r hr)

/-! ## The rounds of a node -/

/-- The rounds of a node are in order, and none reads an observable after its completion. -/
structure Sound (l : LogicalReadout) : Prop where
  ordered : ReadoutState.Ordered l
  head : ∀ i c, l.completion[i]? = some (some c) → ∀ h ∈ l.headRounds, h.Reads i → h.round ≤ c
  tail : ∀ i c, l.completion[i]? = some (some c) → ∀ h ∈ l.tailRounds, ¬ h.Reads i

theorem addReadingRound_spec {m2o : List Int} {round begin width : Nat} {g : ReadingRound}
    (h : addReadingRound m2o round begin width = .ok (some g)) :
    g.round = round ∧ ∀ i, g.Reads i → readsObservable m2o i = true := by
  unfold addReadingRound at h
  split at h
  · cases h
  · split at h
    · cases h
    · cases h
      refine ⟨rfl, fun i ⟨flipped, hflipped, hi⟩ => ?_⟩
      obtain ⟨p, -, rfl⟩ := List.mem_map.mp hflipped
      obtain ⟨r, hr, rfl⟩ := List.mem_map.mp hi
      exact List.any_eq_true.mpr ⟨r, (List.mem_filter.mp hr).1, by simp⟩

/-- What a list of rounds gives, each under its number. -/
theorem mem_mapM_rounds (number : Nat → Nat) {f : Nat → Except Error (Option ReadingRound)}
    {reads : Nat → Nat → Bool} {rs : List Nat} {out : List (Option ReadingRound)}
    (hf : ∀ r g, f r = .ok (some g) → g.round = number r ∧ ∀ i, g.Reads i → reads r i = true)
    (h : rs.mapM f = .ok out) :
    (∀ g ∈ out.filterMap id, ∃ r ∈ rs, g.round = number r ∧ ∀ i, g.Reads i → reads r i = true) ∧
    (rs.Pairwise (fun a b => number a < number b) →
      (out.filterMap id).Pairwise fun g h => g.round < h.round) := by
  rw [mapM_eq_ok] at h
  induction h with
  | nil => exact ⟨fun g hg => absurd hg List.not_mem_nil, fun _ => List.Pairwise.nil⟩
  | @cons r o rs out ho hrest ih =>
    obtain ⟨hmem, hsorted⟩ := ih
    cases o with
    | none =>
      rw [List.filterMap_cons_none rfl]
      refine ⟨fun g hg => ?_, fun hs => hsorted (List.pairwise_cons.mp hs).2⟩
      obtain ⟨r', hr', hg'⟩ := hmem g hg
      exact ⟨r', List.mem_cons_of_mem _ hr', hg'⟩
    | some g₀ =>
      have hcons : (some g₀ :: out).filterMap id = g₀ :: out.filterMap id := rfl
      rw [hcons]
      refine ⟨fun g hg => ?_, fun hs => ?_⟩
      · rcases List.mem_cons.mp hg with rfl | hg
        · exact ⟨r, List.mem_cons_self .., hf r g ho⟩
        · obtain ⟨r', hr', hg'⟩ := hmem g hg
          exact ⟨r', List.mem_cons_of_mem _ hr', hg'⟩
      · obtain ⟨hlt, hs⟩ := List.pairwise_cons.mp hs
        refine List.pairwise_cons.mpr ⟨fun g hg => ?_, hsorted hs⟩
        obtain ⟨r', hr', hg', -⟩ := hmem g hg
        rw [(hf r g₀ ho).1, hg']
        exact hlt r' hr'

theorem buildReadout_sound (h : buildReadout t = .ok l) : Sound l ∧
    l.completion = (List.range t.numObservables).map t.completion := by
  simp only [buildReadout, bind_eq_ok] at h
  obtain ⟨_, -, head, hhead, tail, htail, hl⟩ := h
  cases hl
  obtain ⟨hmem, hsorted⟩ := mem_mapM_rounds id
    (fun r g hg => addReadingRound_spec hg) hhead
  obtain ⟨htmem, -⟩ := mem_mapM_rounds (fun _ => 0)
    (fun r g hg => addReadingRound_spec hg) htail
  have hcompletion : ∀ i c, ((List.range t.numObservables).map t.completion)[i]? = some (some c) →
      t.completion i = some c := by
    intro i c hi
    rw [List.getElem?_map] at hi
    obtain ⟨j, hj, hc⟩ := Option.map_eq_some_iff.mp hi
    obtain ⟨hlt, hij⟩ := List.getElem?_eq_some_iff.mp hj
    rw [List.getElem_range] at hij
    rw [hij]
    exact hc
  refine ⟨⟨hsorted List.pairwise_lt_range, fun i c hi g hg hreads => ?_, fun i c hi g hg hreads => ?_⟩,
    rfl⟩
  · obtain ⟨r, hr, hround, hmarked⟩ := hmem g hg
    rw [hround]
    exact (completion_spec (hcompletion i c hi)).2.2.1 r (List.mem_range.mp hr) (hmarked i hreads)
  · obtain ⟨r, hr, -, hmarked⟩ := htmem g hg
    have hnot := (completion_spec (hcompletion i c hi)).2.2.2 r hr
    rw [hmarked i hreads] at hnot
    cases hnot

/-! ## No flip after the completion -/

theorem exists_readout {id : PhaseId} (h : rowMarked (t.phaseSpec id).m2oSparse i = true) :
    ∃ e ∈ t.spec.phases, e.id = id ∧ e.spec = t.phaseSpec id ∧ e.spec.m2oSparse ≠ [] := by
  have hne : (t.phaseSpec id).m2oSparse ≠ [] := by
    intro hnil
    rw [hnil] at h
    cases i <;> cases h
  unfold TemplateData.phaseSpec at hne ⊢
  cases hfind : t.spec.phases.find? fun e => e.id = id with
  | none =>
    rw [hfind] at hne
    exact absurd rfl hne
  | some e =>
    rw [hfind] at hne
    exact ⟨e, List.mem_of_find?_eq_some hfind, by simpa using List.find?_some hfind, rfl, hne⟩

namespace ExperimentTemplate

variable (t : ExperimentTemplate)

theorem numObservables_eq : t.spec.numObservables = .ok t.numObservables := by
  have h := t.built
  simp only [buildTemplate, bind_eq_ok] at h
  obtain ⟨_, -, l, -, _, -, n, hn, table, -, _, -, hok⟩ := h
  rw [hn]
  exact congrArg (fun d => Except.ok d.numObservables) (Except.ok.inj hok)

theorem admits_minRounds : t.Admits t.minRounds := ⟨Nat.le_refl _, fun _ => rfl⟩

theorem shortest_eq (hon : t.spec.OnChain) : t.spec.shortest.phaseSequence =
    .ok ((List.range t.minRounds).map fun j => t.phase j t.minRounds) := by
  have hphases := t.phases_eq hon t.admits_minRounds
  cases hrep : t.repeats with
  | true =>
    obtain ⟨-, hm, -⟩ := t.around hrep hon
    rw [← hphases, hm]
    rfl
  | false =>
    have hself := t.selfLoops_of_repeats hrep
    rw [phaseSequence_withRounds hself] at hphases
    rw [← hphases]
    exact phaseSequence_withRounds hself

/-- What `validate_observables` checked on the shortest chain. -/
theorem readout_checked {seq : List PhaseId} (hseq : t.spec.shortest.phaseSequence = .ok seq)
    (hreads : t.spec.hasReadout = true) :
    (∀ e ∈ t.spec.phases, t.spec.validateReadout t.numObservables e = .ok ()) ∧
    ∀ j id, seq[j]? = some id → ∀ i < t.numObservables, flipsObservable (t.phaseSpec id) i = true →
      ∀ last, lastRead (seq.map t.phaseSpec) i = some last → j ≤ last := by
  have hval := t.built_steps.1
  have hphases : seq.mapM t.spec.getPhase = .ok (seq.map t.phaseSpec) := by
    apply mapM_eq_ok_map
    intro id hid
    obtain ⟨e, -, hget⟩ := exists_getPhase hval (named_of_mem_phaseSequence hseq hid)
    rw [hget, TemplateData.phaseSpec_eq hget]
  simp only [DemChunksSpec.validate, bind_eq_ok] at hval
  obtain ⟨_, -, _, -, _, -, _, -, _, -, _, -, _, hobs, -⟩ := hval
  simp only [validateObservables, bind_eq_ok, t.numObservables_eq, ok_bind] at hobs
  obtain ⟨_, -, _, -, seq', hseq', _, hread, horder⟩ := hobs
  rw [readoutSequence, if_pos hreads, hseq] at hseq'
  obtain rfl := Except.ok.inj hseq'
  simp only [validateReadoutOrder, t.numObservables_eq, ok_bind, hphases] at horder
  refine ⟨forM_eq_ok.mp hread, fun j id hj i hi hflips last hlast => ?_⟩
  have hlt : j < seq.length := (List.getElem?_eq_some_iff.mp hj).1
  have hcheck := forM_eq_ok.mp (forM_eq_ok.mp horder j (List.mem_range.mpr hlt)) i (List.mem_range.mpr hi)
  rw [throwIf_eq_ok] at hcheck
  by_contra hno
  apply hcheck
  constructor
  · rw [List.getD_eq_getElem?_getD, List.getElem?_map, hj]
    exact hflips
  · rw [hlast]
    simpa using hno

/-- Where no round of the shortest chain reads an observable after `c`, and `c` does, none flips it. -/
theorem flips_le {seq : List PhaseId} (hseq : t.spec.shortest.phaseSequence = .ok seq) {i c j : Nat}
    {id : PhaseId} (hlast : ∀ j id, seq[j]? = some id →
      rowMarked (t.phaseSpec id).m2oSparse i = true → j ≤ c)
    {idc : PhaseId} (hc : seq[c]? = some idc) (hreads : rowMarked (t.phaseSpec idc).m2oSparse i = true)
    (hi : i < t.numObservables) (hj : seq[j]? = some id)
    (hflips : flipsObservable (t.phaseSpec id) i = true) : j ≤ c := by
  have hreadout : t.spec.hasReadout = true := by
    obtain ⟨e, he, -, -, hne⟩ := exists_readout hreads
    exact List.any_eq_true.mpr ⟨e, he, by simpa using hne⟩
  have hread : ∀ j id, seq[j]? = some id →
      (((seq.map t.phaseSpec).map (·.m2oSparse)).getD j []) = (t.phaseSpec id).m2oSparse := by
    intro j id hj
    rw [List.getD_eq_getElem?_getD, List.map_map, List.getElem?_map, hj]
    rfl
  have hfound : c ∈ (List.range (seq.map t.phaseSpec).length).filter fun j =>
      rowMarked (((seq.map t.phaseSpec).map (·.m2oSparse)).getD j []) i := by
    apply List.mem_filter.mpr
    rw [hread c idc hc, List.length_map]
    exact ⟨List.mem_range.mpr (List.getElem?_eq_some_iff.mp hc).1, hreads⟩
  cases hsome : lastRead (seq.map t.phaseSpec) i with
  | none =>
    rw [lastRead, List.getLast?_eq_none_iff] at hsome
    rw [hsome] at hfound
    cases hfound
  | some last =>
    have hle := (t.readout_checked hseq hreadout).2 j id hj i hi hflips last hsome
    obtain ⟨hmem, hmarked⟩ := List.mem_filter.mp (List.mem_of_getLast? hsome)
    rw [List.length_map] at hmem
    obtain ⟨idl, hat⟩ : ∃ idl, seq[last]? = some idl :=
      ⟨_, List.getElem?_eq_getElem (List.mem_range.mp hmem)⟩
    rw [hread last idl hat] at hmarked
    exact Nat.le_trans hle (hlast last idl hat hmarked)

theorem bulk_reads_nothing (hon : t.spec.OnChain) (hrep : t.repeats = true) (i : Nat) :
    rowMarked (t.phaseSpec t.bulk).m2oSparse i = false := by
  by_contra hmarked
  obtain ⟨e, he, hid, -, hne⟩ := exists_readout (Bool.of_not_eq_false hmarked)
  have hreadout : t.spec.hasReadout = true := List.any_eq_true.mpr ⟨e, he, by simpa using hne⟩
  have hcheck := (t.readout_checked (t.shortest_eq hon) hreadout).1 e he
  rw [validateReadout, if_neg hne] at hcheck
  simp only [bind_eq_ok, throwIf_eq_ok] at hcheck
  obtain ⟨_, hself, -⟩ := hcheck
  obtain ⟨hloops, -⟩ := t.around hrep hon
  have hmem : t.bulk ∈ t.spec.selfLoops := by
    rw [hloops]
    exact List.mem_singleton_self _
  obtain ⟨conn, hconn, hfrom⟩ := List.mem_map.mp hmem
  obtain ⟨hconn, hloop⟩ := List.mem_filter.mp hconn
  apply hself
  apply List.any_eq_true.mpr
  refine ⟨conn, hconn, ?_⟩
  rw [hid, ← hfrom]
  simpa using hloop

/-! ## Rounds before the completion -/

theorem phase_of_lt {r R : Nat} (h : r < t.prefixRounds) : t.phase r R = t.prefixPhases.getD r ⟨0⟩ :=
  if_pos h

/-- On the shortest chain no round reads a completed observable after its completion. -/
theorem le_completion_of_reads (hon : t.spec.OnChain) {i c j : Nat} (hc : t.completion i = some c)
    (hj : j < t.minRounds)
    (hreads : rowMarked (t.phaseSpec (t.phase j t.minRounds)).m2oSparse i = true) : j ≤ c := by
  obtain ⟨hcp, -, hbefore, htail⟩ := completion_spec hc
  have hfit := t.rounds_fit hon t.admits_minRounds
  by_cases hpre : j < t.prefixRounds
  · apply hbefore j hpre
    rw [readsObservable_eq]
    unfold TemplateData.readoutOf
    rw [t.phase_of_lt hpre] at hreads ⊢
    exact hreads
  have hrep : t.repeats = true := by
    by_contra hno
    have := t.eq_prefixRounds t.admits_minRounds (by simpa using hno)
    omega
  by_cases hbulk : j < t.minRounds - t.suffixRounds
  · have hphase : t.phase j t.minRounds = t.bulk := by
      unfold TemplateData.phase
      rw [if_neg hpre, if_pos hbulk]
    rw [hphase, t.bulk_reads_nothing hon hrep] at hreads
    cases hreads
  · -- the suffix stands at the end of the shot the constructor looked at
    have hprobe : t.readoutProbe = t.minRounds + 2 := if_pos hrep
    have htailRounds : t.readoutTail = List.range' (t.readoutProbe - t.suffixRounds) t.suffixRounds := by
      unfold TemplateData.readoutTail
      rw [hrep]
      rfl
    have hmem : j + 2 ∈ t.readoutTail := by
      rw [htailRounds, List.mem_range'_1]
      omega
    have hphase : t.phase (j + 2) t.readoutProbe = t.phase j t.minRounds := by
      unfold TemplateData.phase
      rw [if_neg (by omega), if_neg (by omega), if_neg hpre, if_neg hbulk]
      congr 1
      omega
    have hno := htail (j + 2) hmem
    rw [readsObservable_eq, TemplateData.readoutOf, hphase, hreads] at hno
    cases hno

/-- Off the chain there is one shot, and all its rounds are prefix rounds. -/
theorem offChain {R : Nat} {seq : List PhaseId} (hoff : ¬ t.spec.OnChain)
    (hseq : (t.spec.withRounds R).phaseSequence = .ok seq) :
    t.spec.shortest.phaseSequence = .ok seq ∧ t.prefixPhases = seq := by
  have hself : t.spec.selfLoops ≠ [] := by
    intro hnil
    exact hoff fun rep hrep => by simp [hnil] at hrep
  have hrep : t.repeats = true := by
    by_contra hno
    exact hself (t.selfLoops_of_repeats (by simpa using hno))
  obtain ⟨l, -, hl, hp, -⟩ := t.built_layout
  rw [t.built_steps.2.2.1] at hrep
  rw [shotLayout, if_pos hrep, bind_eq_ok] at hl
  obtain ⟨lay, hlay, hok⟩ := hl
  cases hok
  simp only [layout, bind_eq_ok] at hlay
  obtain ⟨rep, hr, seq', hseq', hret⟩ := hlay
  cases hret
  obtain ⟨hmin, h2, hnot, -⟩ := phaseSequence_offChain (repeatingPhase_eq_ok hr) hoff hseq
  have hshort : t.spec.shortest = t.spec.withRounds R := by
    have hmax : max 2 t.spec.minimumRounds = R := by omega
    exact congrArg t.spec.withRounds hmax
  rw [hshort, hseq] at hseq'
  obtain rfl := Except.ok.inj hseq'
  refine ⟨by rw [hshort, hseq], ?_⟩
  rw [hp]
  change seq.takeWhile (· ≠ rep) = seq
  rw [List.takeWhile_eq_self_iff]
  intro id hid
  have hne : id ≠ rep := fun heq => hnot (heq ▸ hid)
  simpa using hne

/-- No round of an admitted shot flips an observable after its completion. -/
theorem flips_le_completion {R r i c : Nat} {seq : List PhaseId} {id : PhaseId} (hR : t.Admits R)
    (hseq : (t.spec.withRounds R).phaseSequence = .ok seq) (hr : seq[r]? = some id)
    (hi : i < t.numObservables) (hc : t.completion i = some c)
    (hflips : flipsObservable (t.phaseSpec id) i = true) : r ≤ c := by
  obtain ⟨hcp, hcreads, hbefore, -⟩ := completion_spec hc
  rw [readsObservable_eq, TemplateData.readoutOf, t.phase_of_lt hcp] at hcreads
  by_cases hon : t.spec.OnChain
  · have hfit := t.rounds_fit hon hR
    have hfit' := t.rounds_fit hon t.admits_minRounds
    have hR' := hR.1
    have hpositions : ∀ j id, ((List.range t.minRounds).map fun j => t.phase j t.minRounds)[j]? =
        some id → j < t.minRounds ∧ t.phase j t.minRounds = id := by
      intro j id hj
      rw [List.getElem?_map] at hj
      obtain ⟨j', hj', hid⟩ := Option.map_eq_some_iff.mp hj
      obtain ⟨hlt, heq⟩ := List.getElem?_eq_some_iff.mp hj'
      rw [List.getElem_range] at heq
      rw [List.length_range] at hlt
      exact ⟨hlt, heq ▸ hid⟩
    have hat : ∀ j < t.minRounds,
        ((List.range t.minRounds).map fun j => t.phase j t.minRounds)[j]? =
          some (t.phase j t.minRounds) := by
      intro j hj
      rw [List.getElem?_map, List.getElem?_range hj]
      rfl
    rw [t.phases_eq hon hR] at hseq
    cases hseq
    rw [List.getElem?_map] at hr
    obtain ⟨r', hr', hid⟩ := Option.map_eq_some_iff.mp hr
    obtain ⟨hlt, heq⟩ := List.getElem?_eq_some_iff.mp hr'
    rw [List.getElem_range] at heq
    rw [List.length_range] at hlt
    subst heq hid
    have hcm : c < t.minRounds := by omega
    have hle : ∀ j < t.minRounds, t.phase j t.minRounds = t.phase r R → j ≤ c := by
      intro j hj hphase
      have hlast : ∀ j id, ((List.range t.minRounds).map fun j => t.phase j t.minRounds)[j]? =
          some id → rowMarked (t.phaseSpec id).m2oSparse i = true → j ≤ c := by
        intro j id hj hreads
        obtain ⟨hlt, rfl⟩ := hpositions j id hj
        exact t.le_completion_of_reads hon hc hlt hreads
      have hflips' : flipsObservable (t.phaseSpec (t.phase j t.minRounds)) i = true := by
        rw [hphase]
        exact hflips
      have hcreads' : rowMarked (t.phaseSpec (t.phase c t.minRounds)).m2oSparse i = true := by
        rw [t.phase_of_lt hcp]
        exact hcreads
      exact t.flips_le (t.shortest_eq hon) hlast (hat c hcm) hcreads' hi (hat j hj) hflips'
    by_cases hpre : r < t.prefixRounds
    · apply hle r (by omega)
      rw [t.phase_of_lt hpre, t.phase_of_lt hpre]
    -- a later round has its phase on the shortest chain after the prefix
    have hrep : t.repeats = true := by
      by_contra hno
      have := t.eq_prefixRounds hR (by simpa using hno)
      omega
    exfalso
    by_cases hbulk : r < R - t.suffixRounds
    · have hroom := (t.around hrep hon).2.2.length
      have hm := (t.around hrep hon).2.1
      have hmin : t.prefixRounds < t.minRounds - t.suffixRounds := by
        unfold TemplateData.prefixRounds TemplateData.suffixRounds
        omega
      have := hle t.prefixRounds (by omega) (by
        unfold TemplateData.phase
        rw [if_neg (by omega), if_pos hmin, if_neg hpre, if_pos hbulk])
      omega
    · have := hle (t.minRounds - t.suffixRounds + (r - (R - t.suffixRounds))) (by omega) (by
        unfold TemplateData.phase
        rw [if_neg (by omega), if_neg (by omega), if_neg hpre, if_neg hbulk]
        congr 1
        omega)
      omega
  · obtain ⟨hshort, hfront⟩ := t.offChain hon hseq
    have hphase : ∀ j id, seq[j]? = some id → j < t.prefixRounds ∧
        t.prefixPhases.getD j ⟨0⟩ = id := by
      intro j id hj
      rw [← hfront] at hj
      exact ⟨(List.getElem?_eq_some_iff.mp hj).1, by rw [List.getD_eq_getElem?_getD, hj]; rfl⟩
    have hlast : ∀ j id, seq[j]? = some id → rowMarked (t.phaseSpec id).m2oSparse i = true →
        j ≤ c := by
      intro j id hj hreads
      obtain ⟨hlt, rfl⟩ := hphase j id hj
      apply hbefore j hlt
      rw [readsObservable_eq, TemplateData.readoutOf, t.phase_of_lt hlt]
      exact hreads
    obtain ⟨idc, hidc⟩ : ∃ idc, seq[c]? = some idc := by
      rw [← hfront]
      exact ⟨_, List.getElem?_eq_getElem hcp⟩
    rw [(hphase c idc hidc).2] at hcreads
    exact t.flips_le hshort hlast hidc hcreads hi hr hflips

end ExperimentTemplate

end CudaqQec
