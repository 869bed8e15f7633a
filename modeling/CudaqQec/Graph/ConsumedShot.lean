import CudaqQec.Graph.Consume

/-!
# What is consumed of a shot

Whatever the records and the clears of a shot, what was consumed and what the frame holds add up to what
was staged below the frontier, and the values consumed lead to the round from which the frame goes on
(`Running`). At the end of the shot everything lies below the frontier. If nothing was staged since the
last clear, the output is then complete with the coverage of a value that was consumed before:
`partitions_iff`.
-/

namespace CudaqQec

open Frames Piece Checked Delta OutputStager

namespace StagedOutput

open ShotStep

variable {name : String} {width capacity rounds : Nat} {o₀ o : StagedOutput}
  {ds since absorbed waiting last : List Delta} {steps : List ShotStep} {d : Delta}

/-- What the progress shows of the stager, between refreshes: nothing since it was consumed, or what the
frame holds, or less. -/
def Shown (o₀ o : StagedOutput) : Prop :=
  o.progress.generation < o.stager.generation ∧ o.stager.begin < o.stager.frontier ∨
  o.progress.generation = o.stager.generation ∧
    (o.progress.status = .pending ∧ o.stager.frontier = o.stager.begin ∧
        (o.stager.frontier = 0 ∧ o.progress = o₀.progress ∨
          o.progress.coverageBeginRound < o.stager.frontier) ∨
      o.progress.status = .available ∧ o.stager.begin < o.stager.frontier ∧
        o.progress.coverageBeginRound = o.stager.begin ∧
        o.progress.coverageEndRound = o.stager.frontier)

/-- A shot that began as `o₀`, once `ds` were staged, `since` of them after the last clear. -/
structure Running (width : Nat) (o₀ : StagedOutput) (ds since : List Delta) (o : StagedOutput)
    (absorbed waiting : List Delta) : Prop where
  stages : o.stager.Stages (proper ds) absorbed waiting
  capacity : o.stager.capacity = o₀.stager.capacity
  whole : o.stager.whole = xorAll (zeros width) (loads (wholes ds))
  hasWhole : o.stager.hasWhole = !(wholes ds).isEmpty
  length : o.stager.bits.length = width
  total : xorAll o.stager.bits (o.consumed.map Consumed.value) =
    xorAll (zeros width) (loads (absorbed ++ empties ds))
  begin : o.stager.begin ≤ o.stager.frontier
  mem : ∀ p ∈ since, p ∈ ds
  after : ∀ p ∈ proper since, o.stager.begin ≤ p.begin
  still : proper since = [] → o.stager.frontier = o.stager.begin
  moved : 0 < o.stager.frontier → 0 < o.stager.generation
  chain : Chained 0 o.consumed o.stager.begin
  shown : Shown o₀ o

/-! ## Shots that fit -/

theorem Fits.init (h : Fits capacity (ds ++ [d])) : Fits capacity ds where
  disjoint := by
    have hd := h.disjoint
    rw [proper_append] at hd
    exact (List.pairwise_append.mp hd).1
  room pre e post he := h.room pre e (post ++ [d]) (by rw [he]; simp)

theorem Fits.take {post : List Delta} (h : Fits capacity (ds ++ post)) : Fits capacity ds := by
  induction post using List.reverseRecOn with
  | nil => rwa [List.append_nil] at h
  | append_singleton post d ih =>
    rw [← List.append_assoc] at h
    exact ih h.init

theorem running_nil (hstart : o₀.AtStart width) (hnone : o₀.consumed = []) :
    Running width o₀ [] [] o₀ [] [] := by
  have hs := staged_nil hstart.stager
  have hfrontier := hstart.stager.frontier
  have hbegin := hstart.begin
  refine ⟨hs.stages, rfl, hs.whole, hs.hasWhole, hs.length_bits, ?_, ?_, ?_, ?_, ?_, ?_, ?_, ?_⟩
  · rw [hnone]
    exact hstart.stager.bits
  · omega
  · simp
  · simp [proper]
  · intro _
    omega
  · intro h
    omega
  · rw [hnone]
    exact hbegin.symm
  · exact .inr ⟨hstart.generation.symm, .inl ⟨hstart.status, by omega, .inl ⟨hfrontier, rfl⟩⟩⟩

/-! ## One delta -/

/-- A delta that commits no round, or the whole shot, moves no round. -/
theorem Running.of_not_proper {s' : OutputStager} (h : Running width o₀ ds since o absorbed waiting)
    (hd : proper [d] = []) (hframe : s' = { o.stager with
      bits := s'.bits
      whole := s'.whole
      hasWhole := s'.hasWhole })
    (hwhole : s'.whole = xorAll (zeros width) (loads (wholes (ds ++ [d]))))
    (hhas : s'.hasWhole = !(wholes (ds ++ [d])).isEmpty) (hlength : s'.bits.length = width)
    (htotal : xorAll s'.bits (o.consumed.map Consumed.value) =
      xorAll (zeros width) (loads (absorbed ++ empties (ds ++ [d])))) :
    Running width o₀ (ds ++ [d]) (since ++ [d]) { o with stager := s' } absorbed waiting := by
  have hds : proper (ds ++ [d]) = proper ds := by rw [proper_append, hd, List.append_nil]
  have hsince : proper (since ++ [d]) = proper since := by rw [proper_append, hd, List.append_nil]
  obtain ⟨hstages, hcap, -, -, -, -, hbegin, hmem, hafter, hstill, hmoved, hchain, hshown⟩ := h
  refine ⟨?_, ?_, hwhole, hhas, hlength, htotal, ?_, ?_, ?_, ?_, ?_, ?_, ?_⟩
  · rw [hds, hframe]
    exact ⟨hstages.assembled, hstages.view, hstages.slots, hstages.size⟩
  · rw [hframe]
    exact hcap
  · rw [hframe]
    exact hbegin
  · intro p hp
    rcases List.mem_append.mp hp with hp | hp
    · exact List.mem_append_left _ (hmem p hp)
    · exact List.mem_append_right _ hp
  · rw [hsince, hframe]
    exact hafter
  · rw [hsince, hframe]
    exact hstill
  · rw [hframe]
    exact hmoved
  · rw [hframe]
    exact hchain
  · rw [hframe]
    exact hshown

theorem Running.stageDelta (name : String) (h : Running width o₀ ds since o absorbed waiting)
    (hfits : Fits o₀.stager.capacity (ds ++ [d])) :
    ∃ s' absorbed' waiting', o.stager.stageDelta name d = .ok s' ∧
      Running width o₀ (ds ++ [d]) (since ++ [d]) { o with stager := s' } absorbed' waiting' := by
  -- a delta of the whole shot joins what is folded when the shot ends
  by_cases hwhole : d.stop = wholeShot
  · have hw : wholes [d] = [d] := by simp [wholes, isWhole, hwhole]
    have hp : proper [d] = [] := by simp [proper, isWhole, hwhole]
    have he : empties [d] = [] := by simp [empties, isWhole, hwhole]
    refine ⟨{ o.stager with whole := xorInto o.stager.whole d.load, hasWhole := true }, absorbed,
      waiting, ?_, h.of_not_proper hp rfl ?_ ?_ h.length ?_⟩
    · unfold OutputStager.stageDelta
      rw [if_pos hwhole]
    · rw [wholes_append, hw, loads_append, xorAll_append, ← h.whole]
      rfl
    · rw [wholes_append, hw]
      simp
    · rw [empties_append, he, List.append_nil]
      exact h.total
  -- a delta of no rounds joins the bits now, and no coverage moves
  by_cases hempty : d.stop ≤ d.begin
  · have hw : wholes [d] = [] := by simp [wholes, isWhole, hwhole]
    have hp : proper [d] = [] := by simp [proper, Nat.not_lt.mpr hempty]
    have he : empties [d] = [d] := by simp [empties, isWhole, hwhole, hempty]
    refine ⟨{ o.stager with bits := xorInto o.stager.bits d.load }, absorbed,
      waiting, ?_, h.of_not_proper hp rfl ?_ ?_ ?_ ?_⟩
    · unfold OutputStager.stageDelta
      rw [if_neg hwhole, if_pos hempty]
    · rw [wholes_append, hw, List.append_nil]
      exact h.whole
    · rw [wholes_append, hw, List.append_nil]
      exact h.hasWhole
    · rw [length_xorInto, h.length]
    · rw [xorAll_xorInto, h.total, empties_append, he, ← List.append_assoc,
        loads_append _ [d], xorAll_append]
      rfl
  -- any other takes a slot, and the rounds that now follow the frontier are folded
  have hne : d.begin < d.stop := by omega
  have hw : wholes [d] = [] := by simp [wholes, isWhole, hwhole]
  have hp : proper [d] = [d] := by simp [proper, isWhole, hwhole, hne]
  have he : empties [d] = [] := by simp [empties, hne]
  have hds : proper (ds ++ [d]) = proper ds ++ [d] := by rw [proper_append, hp]
  have hdis : ∀ p ∈ proper ds, Piece.Disjoint p d := by
    have hd := hfits.disjoint
    rw [hds] at hd
    exact fun p hp => (List.pairwise_append.mp hd).2.2 p hp d (List.mem_singleton_self d)
  have hroom : waiting.length < o.stager.capacity := by
    rw [h.capacity, ← h.stages.assembled.perm_filter_waiting.length_eq]
    exact hfits.room ds d [] rfl (by rw [hp]; simp) _ h.stages.assembled.isGreatest
  obtain ⟨s', folded, waiting', hcall, hstages, hbits, hgen, hbegin, hwholes, hhas, hcap⟩ :=
    stageDelta_interval name h.stages hwhole hne hdis hroom
  have hfrontier := h.stages.assembled.frontier_le hne hdis
  have hrun := Run.of_append h.stages.assembled.run hstages.assembled.run
  have hle := h.begin
  refine ⟨s', absorbed ++ folded, waiting', hcall, ?_⟩
  refine ⟨?_, ?_, ?_, ?_, ?_, ?_, ?_, ?_, ?_, ?_, ?_, ?_, ?_⟩
  · rw [hds]
    exact hstages
  · rw [← h.capacity]
    exact hcap
  · rw [wholes_append, hw, List.append_nil, ← h.whole]
    exact hwholes
  · rw [wholes_append, hw, List.append_nil, ← h.hasWhole]
    exact hhas
  · rw [← h.length]
    change s'.bits.length = _
    rw [hbits, length_xorAll]
  · change xorAll s'.bits _ = _
    rw [hbits, ← xorAll_append, xorAll_perm _ List.perm_append_comm, xorAll_append, h.total,
      ← xorAll_append, ← loads_append, empties_append, he, List.append_nil]
    apply xorAll_perm
    apply List.Perm.map
    rw [List.append_assoc, List.append_assoc]
    exact List.perm_append_comm.append_left absorbed
  · change s'.begin ≤ s'.frontier
    have := hrun.le
    omega
  · intro p hp
    rcases List.mem_append.mp hp with hp | hp
    · exact List.mem_append_left _ (h.mem p hp)
    · exact List.mem_append_right _ hp
  · intro p hmem
    change s'.begin ≤ p.begin
    rw [proper_append, hp] at hmem
    rcases List.mem_append.mp hmem with hmem | hmem
    · rw [hbegin]
      exact h.after p hmem
    · rw [List.mem_singleton.mp hmem]
      omega
  · intro hnone
    rw [proper_append, hp] at hnone
    simp at hnone
  · intro hpos
    change 0 < s'.generation
    change 0 < s'.frontier at hpos
    have := h.moved
    by_cases hf : folded = []
    · rw [hf] at hrun hgen
      have : o.stager.frontier = s'.frontier := hrun
      rw [if_pos rfl] at hgen
      omega
    · rw [if_neg hf] at hgen
      omega
  · change Chained 0 o.consumed s'.begin
    rw [hbegin]
    exact h.chain
  -- the generation moves exactly when the frontier does, so a stale value is seen to be stale
  · have hshown := h.shown
    unfold Shown at hshown ⊢
    dsimp only
    by_cases hf : folded = []
    · rw [hf] at hrun hgen
      have hsame : o.stager.frontier = s'.frontier := hrun
      rw [if_pos rfl] at hgen
      rw [hgen, hbegin, ← hsame]
      exact hshown
    · have hlt := hrun.lt hf
      rw [if_neg hf] at hgen
      refine .inl ⟨?_, by omega⟩
      rcases hshown with ⟨hless, -⟩ | ⟨heq, -⟩ <;> omega

/-! ## The records and the clears -/

theorem Running.stageAll (name : String) {es : List Delta}
    (h : Running width o₀ ds since o absorbed waiting) (hfits : Fits o₀.stager.capacity (ds ++ es)) :
    ∃ s' absorbed' waiting', es.foldlM (OutputStager.stageDelta name) o.stager = .ok s' ∧
      Running width o₀ (ds ++ es) (since ++ es) { o with stager := s' } absorbed' waiting' := by
  induction es using List.reverseRecOn with
  | nil =>
    refine ⟨o.stager, absorbed, waiting, rfl, ?_⟩
    rw [List.append_nil, List.append_nil]
    exact h
  | append_singleton es d ih =>
    rw [← List.append_assoc] at hfits
    obtain ⟨s, a, w, hrun, hs⟩ := ih hfits.init
    obtain ⟨s', a', w', hcall, hs'⟩ := hs.stageDelta name hfits
    refine ⟨s', a', w', ?_, ?_⟩
    · rw [List.foldlM_append, hrun, ok_bind, List.foldlM_cons, hcall]
      rfl
    · rw [← List.append_assoc, ← List.append_assoc]
      exact hs'

/-! ## A record -/

theorem refreshStaged_record (s : OutputStager) (output : OutputProgress) :
    refreshStaged false none s output = .ok (s, if output.generation < s.generation then
        ⟨s.generation, s.begin, s.frontier, .available⟩ else output) := by
  simp [refreshStaged, pure, Except.pure, bind, Except.bind]

theorem Running.record (name : String) {es : List Delta}
    (h : Running width o₀ ds since o absorbed waiting) (hfits : Fits o₀.stager.capacity (ds ++ es)) :
    ∃ o' absorbed' waiting', o.record name false es = .ok o' ∧
      o'.progress.generation = o'.stager.generation ∧
      Running width o₀ (ds ++ es) (since ++ es) o' absorbed' waiting' := by
  obtain ⟨s, a, w, hrun, hs⟩ := h.stageAll name hfits
  unfold StagedOutput.record
  rw [hrun, ok_bind, refreshStaged_record]
  rcases hs.shown with ⟨hless, hlt⟩ | ⟨heq, hshown⟩
  · dsimp only at hless hlt
    rw [if_pos hless]
    refine ⟨_, a, w, rfl, rfl, ?_⟩
    exact ⟨hs.stages, hs.capacity, hs.whole, hs.hasWhole, hs.length, hs.total, hs.begin, hs.mem,
      hs.after, hs.still, hs.moved, hs.chain, .inr ⟨rfl, .inr ⟨rfl, hlt, rfl, rfl⟩⟩⟩
  · dsimp only at heq
    rw [if_neg (by omega)]
    exact ⟨_, a, w, rfl, heq, hs⟩

/-! ## A clear -/

/-- One value more follows on the others. -/
theorem chained_concat {a b e : Nat} {cs : List Consumed} (c : Consumed) (h : Chained a cs b) :
    Chained a (cs ++ [c]) e ↔ if c.status = .pending then b = e else c.begin = b ∧ c.stop = e := by
  induction cs generalizing a with
  | nil =>
    cases h
    exact Iff.rfl
  | cons f cs ih =>
    change (if f.status = .pending then Chained a (cs ++ [c]) e
      else f.begin = a ∧ Chained f.stop (cs ++ [c]) e) ↔ _
    by_cases hf : f.status = .pending
    · rw [if_pos hf]
      apply ih
      simpa [Chained, hf] using h
    · have hrest : f.begin = a ∧ Chained f.stop cs b := by simpa [Chained, hf] using h
      rw [if_neg hf, ih hrest.2, and_iff_right hrest.1]

/-- A value that is consumed leaves the frame, and the sum stays. -/
theorem xorAll_consumed (cs : List Consumed) (c : Consumed) (h : c.value.length = width) :
    xorAll (zeros width) ((cs ++ [c]).map Consumed.value) = xorAll c.value (cs.map Consumed.value) := by
  rw [List.map_append, xorAll_perm _ List.perm_append_comm]
  change xorAll (xorInto (zeros width) c.value) _ = _
  rw [← h, zeros_xorInto]
  rfl

/-- A clear in the shot goes on from the frontier. -/
theorem Running.clear (h : Running width o₀ ds since o absorbed waiting)
    (hgen : o.progress.generation = o.stager.generation) :
    (o.clear false).progress.generation = (o.clear false).stager.generation ∧
      Running width o₀ ds [] (o.clear false) absorbed waiting := by
  -- in a shot that is not over nothing is complete, so the clear keeps the coverage
  have hnot : o.progress.status ≠ .complete := by
    rcases h.shown with ⟨hless, -⟩ | ⟨-, ⟨hp, -⟩ | ⟨ha, -⟩⟩
    · omega
    · simp [hp]
    · simp [ha]
  -- the bits go to the consumer, and the next value begins at the frontier
  have hclear : o.clear false =
      { stager := { o.stager with bits := o.stager.bits.map fun _ => 0, begin := o.stager.frontier }
        progress := { o.progress with status := .pending }
        consumed := o.consumed ++ [⟨o.stager.bits, o.progress.coverageBeginRound,
          o.progress.coverageEndRound, o.progress.status⟩] } := by
    simp [StagedOutput.clear, consumeStaged, hnot]
  have hzero : (o.stager.bits.map fun _ => (0 : UInt8)) = zeros width := by
    rw [List.map_const', h.length]
    rfl
  rw [hclear]
  refine ⟨hgen, ?_⟩
  refine ⟨⟨h.stages.assembled, h.stages.view, h.stages.slots, h.stages.size⟩, h.capacity, h.whole,
    h.hasWhole, ?_, ?_, Nat.le_refl _, ?_, ?_, fun _ => rfl, h.moved, ?_, ?_⟩
  · change (List.map _ _).length = _
    rw [hzero, length_zeros]
  · change xorAll (List.map _ _) _ = _
    rw [hzero, ← h.total]
    exact xorAll_consumed o.consumed _ h.length
  · simp
  · simp [proper]
  · apply (chained_concat _ h.chain).mpr
    rcases h.shown with ⟨hless, -⟩ | ⟨-, ⟨hp, hsame, -⟩ | ⟨ha, -, hb, hend⟩⟩
    · omega
    · rw [if_pos hp]
      exact hsame.symm
    · rw [if_neg (by simp [ha])]
      exact ⟨hb, hend⟩
  · refine .inr ⟨hgen, .inl ⟨rfl, rfl, ?_⟩⟩
    rcases h.shown with ⟨hless, -⟩ | ⟨-, ⟨hp, -, hcov⟩ | ⟨-, hlt, hb, -⟩⟩
    · omega
    · rcases hcov with ⟨hzero, hprog⟩ | hcov
      · left
        refine ⟨hzero, ?_⟩
        rw [← hprog, ← hp]
      · exact .inr hcov
    · right
      change o.progress.coverageBeginRound < o.stager.frontier
      omega

theorem running_steps (name : String) (hstart : o₀.AtStart width) (hnone : o₀.consumed = [])
    (hfits : Fits o₀.stager.capacity (deltas steps)) :
    ∃ o absorbed waiting, steps.foldlM (step name) o₀ = .ok o ∧
      o.progress.generation = o.stager.generation ∧
      Running width o₀ (deltas steps) (sinceClear steps) o absorbed waiting := by
  induction steps using List.reverseRecOn with
  | nil => exact ⟨o₀, [], [], rfl, hstart.generation.symm, running_nil hstart hnone⟩
  | append_singleton steps s ih =>
    have hdeltas : deltas (steps ++ [s]) = deltas steps ++ deltas [s] := List.flatMap_append ..
    rw [hdeltas] at hfits
    obtain ⟨o, a, w, hrun, hgen, ho⟩ := ih hfits.take
    rw [List.foldlM_append, hrun, ok_bind, List.foldlM_cons]
    cases s with
    | record ds =>
      have hds : deltas [.record ds] = ds := List.flatMap_singleton ..
      have hsince : sinceClear (steps ++ [.record ds]) = sinceClear steps ++ ds :=
        List.foldl_append ..
      rw [hds] at hfits
      obtain ⟨o', a', w', hcall, hgen', ho'⟩ := ho.record name hfits
      refine ⟨o', a', w', ?_, hgen', ?_⟩
      · change (o.record name false ds >>= _) = _
        rw [hcall]
        rfl
      · rw [hdeltas, hds, hsince]
        exact ho'
    | clear =>
      have hds : deltas [.clear] = [] := rfl
      have hsince : sinceClear (steps ++ [.clear]) = [] := List.foldl_append ..
      obtain ⟨hgen', ho'⟩ := ho.clear hgen
      refine ⟨o.clear false, a, w, rfl, hgen', ?_⟩
      rw [hdeltas, hds, hsince, List.append_nil]
      exact ho'

/-! ## The end of the shot -/

/-- Once the deltas are all there, none waits. -/
theorem Running.waiting_eq_nil (h : Running width o₀ ds since o absorbed waiting)
    (hcovers : Covers rounds ds) : waiting = [] := by
  rw [List.eq_nil_iff_forall_not_mem]
  intro p hp
  have hperm := h.stages.assembled.perm
  have habove := h.stages.assembled.above p hp
  have hpd : p ∈ proper ds := hperm.mem_iff.mpr (List.mem_append_right _ hp)
  have hne := h.stages.assembled.nonempty p hp
  have hin := (hcovers p.begin).mpr ⟨p, hpd, Nat.le_refl _, hne⟩
  -- the round at the frontier belongs to one that was folded or to one that waits
  obtain ⟨q, hq, hlo, hhi⟩ := (hcovers o.stager.frontier).mp (by omega)
  rcases List.mem_append.mp (hperm.mem_iff.mp hq) with hq | hq
  · have := h.stages.assembled.stop_le q hq
    omega
  · have := h.stages.assembled.above q hq
    omega

/-- The rounds that came after the last clear are those the frame holds. -/
theorem Running.lt_iff (h : Running width o₀ ds since o absorbed []) :
    o.stager.begin < o.stager.frontier ↔ proper since ≠ [] := by
  constructor
  · intro hlt hnone
    have := h.still hnone
    omega
  · intro hne
    obtain ⟨d, hd⟩ := List.exists_mem_of_ne_nil _ hne
    have hbegin := h.after d hd
    obtain ⟨hmem, hkind⟩ := List.mem_filter.mp hd
    have hlt : d.begin < d.stop := by
      simp only [Bool.and_eq_true, decide_eq_true_eq] at hkind
      exact hkind.2
    have hds : d ∈ proper ds := List.mem_filter.mpr ⟨h.mem d hmem, hkind⟩
    have habs : d ∈ absorbed := by
      have := h.stages.assembled.perm.mem_iff.mp hds
      rwa [List.append_nil] at this
    have := h.stages.assembled.stop_le d habs
    omega

theorem Running.absorbed_eq_nil (h : Running width o₀ ds since o absorbed []) :
    o.stager.frontier = 0 ↔ proper ds = [] := by
  have hperm := h.stages.assembled.perm
  rw [List.append_nil] at hperm
  constructor
  · intro hzero
    by_contra hne
    have habs : absorbed ≠ [] := fun hnil => hne (List.perm_nil.mp (hnil ▸ hperm))
    have := h.stages.assembled.run.lt habs
    omega
  · intro hnil
    rw [hnil] at hperm
    have hrun := h.stages.assembled.run
    rw [List.nil_perm.mp hperm] at hrun
    exact hrun.symm

/-! ## What the flush shows -/

/-- A shot that began as `o₀`, after its last record. -/
structure Ended (width : Nat) (o₀ : StagedOutput) (ds since : List Delta) (o : StagedOutput) : Prop where
  whole : o.stager.whole = zeros width
  hasWhole : o.stager.hasWhole = false
  pending : o.stager.pending = []
  spare : o.stager.spare.Perm (List.range o.stager.capacity)
  size : o.stager.intervals.length = o.stager.capacity
  length : o.stager.bits.length = width
  generation : o.stager.generation = o.progress.generation
  total : xorAll o.stager.bits (o.consumed.map Consumed.value) = xorAll (zeros width) (loads ds)
  chain : Chained 0 o.consumed o.stager.begin
  done : o.progress.status = .complete ∨ o.progress.status = .pending ∧ o.stager.frontier = 0
  shown : (o.progress.status ≠ .pending → o.progress.coverageBeginRound = o.stager.begin) ↔
    wholes ds ≠ [] ∨ proper since ≠ [] ∨ proper ds = [] ∧
      (o₀.progress.generation = 0 ∨ o₀.progress.coverageBeginRound = 0)

theorem Running.perm_loads (h : Running width o₀ ds since o absorbed []) :
    (loads (absorbed ++ empties ds ++ wholes ds)).Perm (loads ds) := by
  apply List.Perm.map
  have hperm := h.stages.assembled.perm
  rw [List.append_nil] at hperm
  exact ((hperm.symm.append_right _).append_right _).trans (perm_kinds ds)

theorem Running.pending_eq_nil (h : Running width o₀ ds since o absorbed []) :
    o.stager.pending = [] := List.map_eq_nil_iff.mp h.stages.view

theorem Running.spare (h : Running width o₀ ds since o absorbed []) :
    o.stager.spare.Perm (List.range o.stager.capacity) := by
  have hslots := h.stages.slots
  rwa [h.pending_eq_nil] at hslots

theorem refreshStaged_final {s s' : OutputStager} {shown : OutputProgress} (output : OutputProgress)
    (hfold : s.foldWholeShot = .ok s')
    (hshown : (if output.generation < s'.generation then
      ⟨s'.generation, s'.begin, s'.frontier, .available⟩ else output) = shown) :
    refreshStaged true none s output =
      .ok (s', if 0 < shown.generation then { shown with status := .complete } else shown) := by
  subst hshown
  unfold refreshStaged
  rw [if_pos rfl, hfold, ok_bind]
  simp only [true_and]
  rfl

/-- With a delta of the whole shot, the end of the shot shows what the frame holds. -/
theorem Running.refresh_whole (h : Running width o₀ ds since o absorbed []) (hwhole : wholes ds ≠ []) :
    ∃ s' output', refreshStaged true none o.stager o.progress = .ok (s', output') ∧
      Ended width o₀ ds since { o with stager := s', progress := output' } := by
  have hhas : o.stager.hasWhole = true := by
    rw [h.hasWhole]
    simpa using hwhole
  have hfold : o.stager.foldWholeShot = .ok { o.stager with
      bits := xorInto o.stager.bits o.stager.whole
      whole := o.stager.whole.map fun _ => 0
      hasWhole := false
      generation := o.stager.generation + 1
      pending := [] } := by
    unfold foldWholeShot
    rw [hhas, h.pending_eq_nil]
    rfl
  have hless : o.progress.generation < o.stager.generation + 1 := by
    rcases h.shown with ⟨hless, -⟩ | ⟨heq, -⟩ <;> omega
  have hfinal := refreshStaged_final o.progress hfold (if_pos hless)
  rw [if_pos (Nat.succ_pos _)] at hfinal
  refine ⟨_, _, hfinal, ?_⟩
  refine ⟨?_, rfl, rfl, h.spare, h.stages.size, ?_, rfl, ?_, h.chain, .inl rfl, ?_⟩
  · change List.map _ _ = _
    rw [List.map_const', h.whole, length_xorAll, length_zeros]
    rfl
  · change (xorInto _ _).length = _
    rw [length_xorInto, h.length]
  · change xorAll (xorInto _ _) _ = _
    have hlength : (xorAll (zeros width) (loads (absorbed ++ empties ds))).length = width := by
      rw [length_xorAll, length_zeros]
    rw [xorAll_xorInto, h.total, h.whole, ← xorAll_perm _ h.perm_loads, loads_append _ (wholes ds),
      xorAll_append]
    nth_rewrite 2 [← hlength]
    exact xorInto_xorAll _ _
  · exact ⟨fun _ => .inl hwhole, fun _ _ => rfl⟩

/-- Without one, it shows what was folded since the last clear, if there is any. -/
theorem Running.refresh_no_whole (h : Running width o₀ ds since o absorbed []) (hwhole : wholes ds = []) :
    ∃ output', refreshStaged true none o.stager o.progress = .ok (o.stager, output') ∧
      Ended width o₀ ds since { o with progress := output' } := by
  have hhas : o.stager.hasWhole = false := by
    rw [h.hasWhole, hwhole]
    rfl
  have hfold : o.stager.foldWholeShot = .ok o.stager := by
    unfold foldWholeShot
    rw [hhas]
    rfl
  have hzeros : o.stager.whole = zeros width := by
    rw [h.whole, hwhole]
    rfl
  have htotal : xorAll o.stager.bits (o.consumed.map Consumed.value) = xorAll (zeros width) (loads ds) := by
    have hperm := h.perm_loads
    rw [hwhole, List.append_nil] at hperm
    rw [h.total, xorAll_perm _ hperm]
  have hlt := h.lt_iff
  have hzero := h.absorbed_eq_nil
  have hmoved := h.moved
  -- what is shown is behind the frontier, or level with it and either old or of this shot
  rcases h.shown with ⟨hless, hmore⟩ | ⟨heq, ⟨hstatus, hsame, hcov⟩ | ⟨-, hmore, hbegin, -⟩⟩
  · have hfinal := refreshStaged_final o.progress hfold (if_pos hless)
    rw [if_pos (hmoved (by omega))] at hfinal
    refine ⟨_, hfinal, ?_⟩
    exact ⟨hzeros, hhas, h.pending_eq_nil, h.spare, h.stages.size, h.length, rfl, htotal, h.chain,
      .inl rfl, fun _ => .inr (.inl (hlt.mp hmore)), fun _ _ => rfl⟩
  -- nothing was folded since the last refresh: what is shown was of an earlier shot, or is empty
  · have hfinal := refreshStaged_final o.progress hfold (if_neg (by omega))
    refine ⟨_, hfinal, ?_⟩
    have hsince : ¬ proper since ≠ [] := by
      rw [← hlt]
      omega
    refine ⟨hzeros, hhas, h.pending_eq_nil, h.spare, h.stages.size, h.length, ?_, htotal, h.chain,
      ?_, ?_⟩
    · dsimp only
      split <;> exact heq.symm
    · by_cases hgen : 0 < o.progress.generation
      · left
        dsimp only
        rw [if_pos hgen]
      · right
        dsimp only
        rw [if_neg hgen]
        exact ⟨hstatus, by omega⟩
    · dsimp only
      rcases hcov with ⟨hnone, hprog⟩ | hcov
      · have hb : o.stager.begin = 0 := by omega
        rw [hzero] at hnone
        rw [hprog] at hstatus ⊢
        by_cases hgen : 0 < o₀.progress.generation
        · have hpos : ¬ o₀.progress.generation = 0 := by omega
          simp [hgen, hb, hwhole, hsince, hnone, hpos]
        · have hnot : o₀.progress.generation = 0 := by omega
          simp [hnot, hstatus, hnone]
      · have hgen : 0 < o.progress.generation := by omega
        have hb : ¬ o.progress.coverageBeginRound = o.stager.begin := by omega
        have hp : ¬ proper ds = [] := by
          rw [← hzero]
          omega
        simp [hgen, hb, hp, hwhole, hsince]
  · have hfinal := refreshStaged_final o.progress hfold (if_neg (by omega))
    rw [if_pos (by omega)] at hfinal
    refine ⟨_, hfinal, ?_⟩
    exact ⟨hzeros, hhas, h.pending_eq_nil, h.spare, h.stages.size, h.length, heq.symm, htotal, h.chain,
      .inl rfl, fun _ => .inr (.inl (hlt.mp hmore)), fun _ _ => hbegin⟩

/-! ## The next shot -/

theorem Ended.atStart_clear (h : Ended width o₀ ds since o) (shotEnded : Bool) :
    (o.clear shotEnded).AtStart width := by
  have hzero : (o.stager.bits.map fun _ => (0 : UInt8)) = zeros width := by
    rw [List.map_const', h.length]
    rfl
  have hprogress : (o.clear shotEnded).progress.status = .pending ∧
      (o.clear shotEnded).progress.generation = o.progress.generation := by
    cases shotEnded <;> exact ⟨rfl, rfl⟩
  have hstager : (o.clear shotEnded).stager =
      { o.stager with bits := zeros width, frontier := 0, begin := 0 } := by
    rcases h.done with hdone | ⟨hdone, hfrontier⟩
    · simp [StagedOutput.clear, consumeStaged, clearPending, hdone, hzero, h.pending]
    · simp [StagedOutput.clear, consumeStaged, hdone, hzero, hfrontier]
  refine ⟨?_, ?_, ?_, hprogress.1⟩
  · rw [hstager]
    exact ⟨rfl, rfl, h.whole, h.hasWhole, h.pending, h.spare, h.size⟩
  · rw [hstager]
  · rw [hstager, hprogress.2]
    exact h.generation

theorem Ended.total_clear (h : Ended width o₀ ds since o) (shotEnded : Bool) :
    xorAll (zeros width) ((o.clear shotEnded).consumed.map Consumed.value) =
      xorAll (zeros width) (loads ds) := by
  rw [← h.total]
  exact xorAll_consumed o.consumed _ h.length

theorem Ended.chained_clear (h : Ended width o₀ ds since o) (shotEnded : Bool) :
    (∃ b, Chained 0 (o.clear shotEnded).consumed b) ↔
      (o.progress.status ≠ .pending → o.progress.coverageBeginRound = o.stager.begin) := by
  change (∃ b, Chained 0 (o.consumed ++ [_]) b) ↔ _
  simp only [chained_concat _ h.chain]
  by_cases hp : o.progress.status = .pending
  · simp [hp]
  · simp [hp]

/-- What is consumed of a shot adds up to it and follows on itself exactly when the end of the shot has
something new to show. -/
theorem partitions_iff (name : String) (rounds : Nat) (shotEnded : Bool) (hstart : o₀.AtStart width)
    (hnone : o₀.consumed = []) (hfits : Fits o₀.stager.capacity (deltas steps ++ last))
    (hcovers : Covers rounds (deltas steps ++ last)) :
    Partitions name width o₀ steps last shotEnded ↔ NewAtEnd o₀ steps last := by
  obtain ⟨o, a, w, hsteps, -, ho⟩ := running_steps name hstart hnone hfits.take
  obtain ⟨s, a', w', hstage, hs⟩ := ho.stageAll name hfits
  rw [hs.waiting_eq_nil hcovers] at hs
  have hrefresh : ∃ s' output', refreshStaged true none s o.progress = .ok (s', output') ∧
      Ended width o₀ (deltas steps ++ last) (sinceClear steps ++ last)
        { o with stager := s', progress := output' } := by
    by_cases hwhole : wholes (deltas steps ++ last) = []
    · obtain ⟨output', hcall, hended⟩ := hs.refresh_no_whole hwhole
      exact ⟨s, output', hcall, hended⟩
    · exact hs.refresh_whole hwhole
  obtain ⟨s', output', hcall, hended⟩ := hrefresh
  have hrun : o₀.runShot name steps last shotEnded =
      .ok (StagedOutput.clear shotEnded { o with stager := s', progress := output' }) := by
    unfold runShot StagedOutput.record
    rw [hsteps, ok_bind, hstage, ok_bind, hcall, ok_bind]
    rfl
  unfold NewAtEnd
  rw [← hended.shown, ← hended.chained_clear shotEnded]
  constructor
  · rintro ⟨o', hrun', -, hchain, -⟩
    rw [hrun] at hrun'
    cases hrun'
    exact hchain
  · intro hchain
    exact ⟨_, hrun, hended.total_clear shotEnded, hchain, hended.atStart_clear shotEnded⟩

end StagedOutput

/-! ## A shot that is consumed before it ends -/

namespace StagedExample

open StagedOutput ShotStep

def output : StagedOutput := ⟨stager, fresh, []⟩

theorem output_atStart : output.AtStart 1 := ⟨stager_atStart, rfl, rfl, rfl⟩

theorem fits_of_length {capacity : Nat} {ds : List Delta} (hdis : (proper ds).Pairwise Piece.Disjoint)
    (hlen : ds.length ≤ capacity) : Fits capacity ds :=
  ⟨hdis, fun _ _ _ he _ _ _ => length_filter_filter_lt he hlen _ _⟩

/-- The second window waits over a clear, and the first one comes at the end. -/
theorem partitions_second_first :
    Partitions "corrections" 1 output [.record [⟨1, 2, [1]⟩], .clear] [⟨0, 1, [0]⟩] true := by
  have hproper : proper (deltas [.record [⟨1, 2, [1]⟩], .clear] ++ [⟨0, 1, [0]⟩]) =
      [⟨1, 2, [1]⟩, ⟨0, 1, [0]⟩] := rfl
  refine (partitions_iff "corrections" 2 true output_atStart rfl ?_ ?_).mpr ?_
  · apply fits_of_length
    · rw [hproper]
      simp [Piece.Disjoint]
    · decide
  · intro r
    rw [hproper]
    simp
    omega
  · right
    left
    change [_] ≠ []
    simp

/-- The only window is consumed before the shot ends: the end of the shot shows its rounds once more. -/
theorem not_partitions_consumed : output.AtStart 1 ∧ Fits output.stager.capacity [⟨0, 1, [1]⟩] ∧
    Covers 1 [⟨0, 1, [1]⟩] ∧
    ¬ Partitions "corrections" 1 output [.record [⟨0, 1, [1]⟩], .clear] [] true := by
  have hproper : proper [⟨0, 1, [1]⟩] = [⟨0, 1, [1]⟩] := rfl
  refine ⟨output_atStart, ?_, ?_, ?_⟩
  · apply fits_of_length
    · rw [hproper]
      simp
    · decide
  · intro r
    rw [hproper]
    simp
  · rintro ⟨o', hrun, -, ⟨b, hchain⟩, -⟩
    cases hrun
    obtain ⟨-, hnext, -⟩ := hchain
    exact absurd hnext (by decide)

end StagedExample

end CudaqQec
