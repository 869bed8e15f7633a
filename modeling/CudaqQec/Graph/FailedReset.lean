import CudaqQec.Graph.Calls

/-!
# Resets that fail

A node's reset may throw when others have been reset already and the result has not. The graph then hides
the result and fails: its readers see zeros, and no record gets in, until a reset succeeds. It does so for
what derives from `std::exception`. Anything else that is thrown leaves the result pending; and a node that
is read in place shows whatever the throw left of its corrections.

* `Hidden`: what a client must find after a reset that failed.
* `FailsCleanly`: the throw is caught, and nothing is left to be read in place.
* `failedReset_hidden_iff`: in every run without a reset that succeeds, the result is hidden throughout
  exactly if every reset fails cleanly.
-/

namespace CudaqQec

def AllZero (values : List UInt8) : Prop := ∀ b ∈ values, b = 0

theorem allZero_map_zero {α : Type} (l : List α) : AllZero (l.map fun _ => 0) := by
  intro b hb
  obtain ⟨_, -, rfl⟩ := List.mem_map.mp hb
  rfl

theorem AllZero.getD (h : AllZero values) (i : Nat) : values.getD i 0 = 0 := by
  rw [List.getD_eq_getElem?_getD]
  cases hi : values[i]? with
  | none => rfl
  | some b => exact h b (List.mem_of_getElem? hi)

/-! ## Composed values -/

theorem AllZero.copyAt (hvalue : AllZero value) (offset : Nat) (h : AllZero values) :
    AllZero (copyAt offset value values) := by
  unfold CudaqQec.copyAt
  refine List.foldlRecOn _ _ h fun values h i _ b hb => ?_
  rcases List.mem_or_eq_of_mem_set hb with hb | rfl
  · exact h b hb
  · exact hvalue.getD i

theorem AllZero.xorInto (h : AllZero values) (hvalue : AllZero value) :
    AllZero (Frames.xorInto values value) := by
  intro b hb
  obtain ⟨i, hi⟩ := List.mem_iff_getElem?.mp hb
  rw [Frames.getElem?_xorInto_of_zero values (hvalue.getD i)] at hi
  exact h b (List.mem_of_getElem? hi)

theorem AllZero.xorAt (hvalue : AllZero value) (offset : Nat) (h : AllZero values) :
    AllZero (Frames.xorAt values offset value) := by
  intro b hb
  rcases List.mem_append.mp hb with hb | hb
  · exact h b (List.mem_of_mem_take hb)
  · exact AllZero.xorInto (fun c hc => h c (List.mem_of_mem_drop hc)) hvalue b hb

/-- Frames and corrections without a bit compose to values without one. -/
theorem allZero_compose {s : StreamingState} (hnodes : ∀ n ∈ s.nodes, AllZero n.corrections)
    (hframes : ∀ o ∈ s.outputs, AllZero o.stager.bits) : AllZero s.compose.values := by
  have hcopied : AllZero (s.outputs.foldl (fun values o =>
      if o.config.staged then copyAt o.config.valueOffset o.stager.bits values else values)
      (s.values.map fun _ => 0)) := by
    refine List.foldlRecOn _ _ (allZero_map_zero _) fun values h o ho => ?_
    split
    · exact (hframes o ho).copyAt _ h
    · exact h
  refine List.foldlRecOn _ _ hcopied fun values h n hn => ?_
  exact List.foldlRecOn _ _ h fun values h offset _ => (hnodes n hn).xorAt offset h

/-! ## Flags -/

/-- No logical measurement is released. -/
def Unreleased (outputs : List GraphOutput) : Prop :=
  ∀ o ∈ outputs, o.config.logical.isSome = true → true ∉ o.released

theorem unreleased_unreleaseLogical (outputs : List GraphOutput) :
    Unreleased (unreleaseLogical outputs) := by
  intro o ho hlogical htrue
  obtain ⟨o', -, rfl⟩ := List.mem_map.mp ho
  by_cases hlogical' : o'.config.logical.isSome = true
  · rw [if_pos hlogical'] at htrue
    obtain ⟨_, -, hfalse⟩ := List.mem_map.mp htrue
    cases hfalse
  · rw [if_neg hlogical'] at hlogical
    exact hlogical' hlogical

/-- A result that shows nothing of a shot. -/
structure StreamingResult.Dead (r : StreamingResult) : Prop where
  status : r.status = .failed
  values : AllZero r.values
  unreleased : ∀ o ∈ r.outputs, true ∉ o.released

theorem logicalMeasurements_eq_none {r : StreamingResult} (h : ∀ o ∈ r.outputs, true ∉ o.released)
    (first count : Nat) : r.logicalMeasurements first count = none := by
  unfold StreamingResult.logicalMeasurements
  split
  · rfl
  · next o ho =>
    dsimp only
    split
    · rfl
    · next hin =>
      rw [if_neg]
      intro hall
      rw [not_or, not_or, not_or] at hin
      have hlt : first < o.released.length := by omega
      -- the first flag that is asked for is not set
      have hmem : o.released[first] ∈ (o.released.drop first).take count := by
        rw [List.mem_take_iff_getElem]
        refine ⟨0, ?_, ?_⟩
        · rw [List.length_drop]
          omega
        · simp
      have hset : o.released[first] = true := List.all_eq_true.mp hall _ hmem
      exact h o (List.mem_of_getLast? ho) (hset ▸ List.getElem_mem hlt)

theorem GraphState.unreleased_result {σ : Type} {s : GraphState σ} (h : Unreleased s.outputs) :
    ∀ o ∈ s.result.outputs, true ∉ o.released := by
  intro o ho
  obtain ⟨o', ho', rfl⟩ := List.mem_map.mp ho
  unfold GraphOutput.result
  dsimp only
  split
  · next hlogical => exact h o' ho' hlogical
  · exact List.not_mem_nil

/-! ## Nodes that throw -/

section

variable {α β σ : Type} {copies : List (NodeCopies σ)}

theorem filterMap_untilThrown {call : α → Option Thrown × α} {f : α → Option β}
    (h : ∀ a, f (call a).2 = f a) (l : List α) :
    (untilThrown call l).2.filterMap f = l.filterMap f := by
  induction l with
  | nil => rfl
  | cons a l ih =>
    have ha := h a
    unfold untilThrown
    rcases hcall : call a with ⟨thrown, a'⟩
    rw [hcall] at ha
    cases thrown with
    | some thrown => simp only [List.filterMap_cons, ha]
    | none => simp only [List.filterMap_cons, ha, ih]

theorem isEmpty_untilThrown (call : α → Option Thrown × α) (l : List α) :
    (untilThrown call l).2.isEmpty = l.isEmpty := by
  cases l with
  | nil => rfl
  | cons a l =>
    unfold untilThrown
    split <;> rfl

/-- The first call is made whatever the others do. -/
theorem exists_untilThrown_cons (call : α → Option Thrown × α) (a : α) (l : List α) :
    ∃ rest, (untilThrown call (a :: l)).2 = (call a).2 :: rest := by
  unfold untilThrown
  split
  · next h => exact ⟨l, by rw [h]⟩
  · next h => exact ⟨_, by rw [h]⟩

theorem shape_resetReplicas (c : NodeCopies σ) : c.resetReplicas.2.shape = c.shape := by
  simp only [NodeCopies.resetReplicas, NodeCopies.shape, isEmpty_untilThrown]

theorem shape_clear (c : NodeCopies σ) : c.clear.2.shape = c.shape := by
  unfold NodeCopies.clear
  split
  · rfl
  · split
    · rfl
    · simp only [NodeCopies.shape, isEmpty_untilThrown]

theorem clear_of_streaming {c : NodeCopies σ} {streaming : StreamingCapability σ}
    (h : c.kind.streaming = some streaming) :
    c.clear.2.kind = c.kind ∧ c.clear.2.primary = (streaming.clearCorrections c.primary).2 := by
  unfold NodeCopies.clear
  rw [h]
  dsimp only
  split
  · next hcall => exact ⟨rfl, by rw [hcall]⟩
  · next hcall => exact ⟨rfl, by rw [hcall]⟩

theorem filterMap_shape_resetNodes (copies : List (NodeCopies σ)) :
    (resetNodes copies).2.filterMap NodeCopies.shape = copies.filterMap NodeCopies.shape := by
  have hkeeps (c : NodeCopies σ) : c.resetPrimary.2.shape = c.shape := rfl
  have hprimary := filterMap_untilThrown hkeeps copies
  unfold resetNodes
  split
  · next h => rwa [h] at hprimary
  · next h =>
    rw [h] at hprimary
    rw [filterMap_untilThrown shape_resetReplicas, hprimary]

theorem firstCorrections_cons_of_none {c : NodeCopies σ} (h : c.kind.streaming = none) :
    firstCorrections (c :: copies) = firstCorrections copies := by
  simp [firstCorrections, h]

theorem firstCorrections_cons_of_some {c : NodeCopies σ} {streaming : StreamingCapability σ}
    (h : c.kind.streaming = some streaming) :
    firstCorrections (c :: copies) = streaming.corrections c.primary := by
  simp [firstCorrections, h]

theorem AllZero.firstCorrections_clear (h : AllZero (firstCorrections copies)) :
    AllZero (firstCorrections (untilThrown NodeCopies.clear copies).2) := by
  induction copies with
  | nil => exact h
  | cons c copies ih =>
    cases hc : c.kind.streaming with
    | none =>
      have hclear : c.clear = (none, c) := by simp only [NodeCopies.clear, hc]
      rw [firstCorrections_cons_of_none hc] at h
      rw [untilThrown, hclear, firstCorrections_cons_of_none hc]
      exact ih h
    | some streaming =>
      rw [firstCorrections_cons_of_some hc] at h
      have hzero : AllZero (streaming.corrections (streaming.clearCorrections c.primary).2) := by
        rcases streaming.corrections_clear c.primary with hcleared | hkept
        · exact hcleared
        · exact hkept ▸ h
      obtain ⟨hkind, hprimary⟩ := clear_of_streaming hc
      obtain ⟨rest, hrest⟩ := exists_untilThrown_cons NodeCopies.clear c copies
      rw [hrest, firstCorrections_cons_of_some (hkind ▸ hc), hprimary]
      exact hzero

end

/-! ## A graph whose reset has failed -/

namespace DecodingTaskGraph

variable {σ : Type} (g : DecodingTaskGraph σ)

def resultStatus (s : GraphState σ) : StreamingStatus :=
  if g.asyncStreaming then s.readSnapshot.async.readSnapshot.status else s.status

/-- The result has failed, whatever is read of it is zero, no logical measurement is released, and no record
gets in. -/
structure Hidden (s : GraphState σ) : Prop where
  status : g.resultStatus s = .failed
  result : ∀ r, (g.streamingResult s).1 = .ok r →
    AllZero r.values ∧ ∀ first count, r.logicalMeasurements first count = none
  corrections : ∀ values, (g.getObsCorrections s).1 = .ok values → AllZero values
  logical : ∀ first count values, (g.getLogicalMeasurements first count s).1 = .ok values → values = none
  refused : ∀ msyn type, (g.enqueueSyndrome msyn type s).1 ≠ none

/-- What a reset that fails must leave to hide the shot. -/
structure Shut (s : GraphState σ) : Prop where
  status : s.status = .failed
  finalized : s.finalized = false
  nodes : ∀ n ∈ s.nodes, AllZero n.corrections
  frames : ∀ o ∈ s.outputs, AllZero o.stager.bits
  values : AllZero s.values
  unreleased : Unreleased s.outputs
  needsReset : s.async.needsReset = true
  snapshotValid : s.async.snapshotValid = false
  inactive : g.asyncStreaming = true → s.async.active = false
  inPlace : g.asyncStreaming = false → g.streamingConflict = none → s.readsInPlace g.nObs = true →
    AllZero (firstCorrections s.copies)

/-- The readers of an asynchronous graph see the copy that they were last handed. -/
structure Closed (s : GraphState σ) : Prop extends g.Shut s where
  snapshot : g.asyncStreaming = true → s.async.readSnapshot.Dead

/-- What the nodes throw is caught, and a node that is read in place has no correction left. -/
structure FailsCleanly (s : GraphState σ) : Prop where
  caught : (resetNodes s.copies).1 ≠ some .other
  cleared : g.asyncStreaming = false → g.streamingConflict = none → s.readsInPlace g.nObs = true →
    AllZero (firstCorrections (resetNodes s.copies).2)

variable {g} {s : GraphState σ}

theorem readSnapshot_of_invalid (h : s.async.snapshotValid = false) : s.readSnapshot = s := by
  rw [GraphState.readSnapshot, h]
  rfl

theorem Shut.compose (h : g.Shut s) : AllZero s.composeValues.values :=
  allZero_compose h.nodes h.frames

theorem Shut.dead (h : g.Shut s) : s.result.Dead :=
  ⟨h.status, h.values, s.unreleased_result h.unreleased⟩

theorem Closed.composeValues (h : g.Closed s) : g.Closed s.composeValues :=
  { h with values := h.toShut.compose }

/-! ### What its readers return -/

theorem Closed.streamingResult_dead (h : g.Closed s) {r : StreamingResult}
    (hr : (g.streamingResult s).1 = .ok r) : r.Dead := by
  unfold streamingResult at hr
  split at hr
  · next hasync =>
    rw [readSnapshot_of_invalid h.snapshotValid] at hr
    exact Except.ok.inj hr ▸ h.snapshot hasync
  · split at hr
    · cases hr
    · exact Except.ok.inj hr ▸ h.composeValues.dead

theorem Closed.getObsCorrections_allZero (h : g.Closed s) {values : List UInt8}
    (hvalues : (g.getObsCorrections s).1 = .ok values) : AllZero values := by
  unfold getObsCorrections at hvalues
  split at hvalues
  · next hasync =>
    rw [readSnapshot_of_invalid h.snapshotValid] at hvalues
    exact Except.ok.inj hvalues ▸ (h.snapshot hasync).values
  · next hasync =>
    split at hvalues
    · cases hvalues
    · next hsupport =>
      have hconflict : g.streamingConflict = none := by
        unfold requireStreamingSupport at hsupport
        split at hsupport
        · assumption
        · cases hsupport
      split at hvalues
      · next hplace =>
        exact Except.ok.inj hvalues ▸ h.inPlace (Bool.eq_false_iff.mpr hasync) hconflict hplace
      · exact Except.ok.inj hvalues ▸ h.compose

theorem Closed.getLogicalMeasurements_none (h : g.Closed s) {first count : Nat}
    {values : Option (List UInt8)} (hvalues : (g.getLogicalMeasurements first count s).1 = .ok values) :
    values = none := by
  unfold getLogicalMeasurements at hvalues
  split at hvalues
  · cases hvalues
  · split at hvalues
    · cases hvalues
    · split at hvalues
      · cases hvalues
      · split at hvalues
        · next hasync =>
          rw [readSnapshot_of_invalid h.snapshotValid] at hvalues
          rw [← Except.ok.inj hvalues]
          exact logicalMeasurements_eq_none (h.snapshot hasync).unreleased first count
        · rw [← Except.ok.inj hvalues]
          exact logicalMeasurements_eq_none h.composeValues.dead.unreleased first count

/-- Without a session that has begun, no record gets past the checks. -/
theorem Closed.enqueueSyndrome_refused (h : g.Closed s) (msyn : List UInt8) (type : Option RoundType) :
    (g.enqueueSyndrome msyn type s).1 ≠ none := by
  unfold enqueueSyndrome
  split
  · exact Option.some_ne_none _
  · split
    · next hasync =>
      rw [if_neg (Bool.eq_false_iff.mp h.finalized), if_neg (Bool.eq_false_iff.mp (h.inactive hasync))]
      split
      · exact Option.some_ne_none _
      · rw [if_pos h.needsReset]
        exact Option.some_ne_none _
    · dsimp only
      rw [if_pos h.status]
      exact Option.some_ne_none _

theorem Closed.hidden (h : g.Closed s) : g.Hidden s where
  status := by
    unfold resultStatus
    split
    · next hasync =>
      rw [readSnapshot_of_invalid h.snapshotValid]
      exact (h.snapshot hasync).status
    · exact h.status
  result := fun _ hr =>
    ⟨(h.streamingResult_dead hr).values, logicalMeasurements_eq_none (h.streamingResult_dead hr).unreleased⟩
  corrections := fun _ => h.getObsCorrections_allZero
  logical := fun _ _ _ => h.getLogicalMeasurements_none
  refused := h.enqueueSyndrome_refused

/-! ### What its calls leave -/

theorem Closed.streamingResult (h : g.Closed s) : g.Closed (g.streamingResult s).2 := by
  unfold DecodingTaskGraph.streamingResult
  split
  · rw [readSnapshot_of_invalid h.snapshotValid]
    exact h
  · split
    · exact h
    · exact h.composeValues

theorem Closed.getObsCorrections (h : g.Closed s) : g.Closed (g.getObsCorrections s).2 := by
  unfold DecodingTaskGraph.getObsCorrections
  split
  · rw [readSnapshot_of_invalid h.snapshotValid]
    exact h
  · split
    · exact h
    · split
      · exact h
      · exact h.composeValues

theorem Closed.getLogicalMeasurements (h : g.Closed s) (first count : Nat) :
    g.Closed (g.getLogicalMeasurements first count s).2 := by
  unfold DecodingTaskGraph.getLogicalMeasurements
  split
  · exact h
  · split
    · exact h
    · split
      · exact h
      · split
        · rw [readSnapshot_of_invalid h.snapshotValid]
          exact h
        · exact h.composeValues

theorem Closed.enqueueSyndrome (h : g.Closed s) (msyn : List UInt8) (type : Option RoundType) :
    g.Closed (g.enqueueSyndrome msyn type s).2 := by
  unfold DecodingTaskGraph.enqueueSyndrome
  split
  · exact h
  · split
    · next hasync =>
      rw [if_neg (Bool.eq_false_iff.mp h.finalized), if_neg (Bool.eq_false_iff.mp (h.inactive hasync))]
      split
      · exact h
      · rw [if_pos h.needsReset]
        exact h
    · dsimp only
      rw [if_pos h.status]
      exact { h with }

@[simp] theorem publishSnapshot_toStreamingState (s : GraphState σ) :
    (g.publishSnapshot s).toStreamingState = s.toStreamingState := by
  unfold publishSnapshot
  split <;> rfl

@[simp] theorem publishSnapshot_copies (s : GraphState σ) : (g.publishSnapshot s).copies = s.copies := by
  unfold publishSnapshot
  split <;> rfl

/-- Its readers are handed a result that shows nothing. -/
theorem Shut.publishSnapshot (h : g.Shut s) : g.Closed (g.publishSnapshot s) := by
  unfold DecodingTaskGraph.publishSnapshot
  split
  · exact { h with snapshot := fun _ => h.dead }
  · next hasync => exact { h with snapshot := fun h' => absurd h' hasync }

theorem readsInPlace_congr {s' : GraphState σ} {nObs : Nat}
    (hcopies : s'.copies.filterMap NodeCopies.shape = s.copies.filterMap NodeCopies.shape)
    (hnodes : s'.nodes.map (fun n => (n.staged, n.offsets)) = s.nodes.map fun n => (n.staged, n.offsets)) :
    s'.readsInPlace nObs = s.readsInPlace nObs := by
  rw [GraphState.readsInPlace, GraphState.readsInPlace, hcopies, hnodes]

theorem Shut.inPlace_congr {s' : GraphState σ} (h : g.Shut s)
    (hcopies : s'.copies.filterMap NodeCopies.shape = s.copies.filterMap NodeCopies.shape)
    (hnodes : s'.nodes.map (fun n => (n.staged, n.offsets)) = s.nodes.map fun n => (n.staged, n.offsets))
    (hfirst : AllZero (firstCorrections s.copies) → AllZero (firstCorrections s'.copies)) :
    g.asyncStreaming = false → g.streamingConflict = none → s'.readsInPlace g.nObs = true →
      AllZero (firstCorrections s'.copies) := by
  intro hasync hconflict hplace
  apply hfirst
  apply h.inPlace hasync hconflict
  rw [← hplace]
  exact (readsInPlace_congr hcopies hnodes).symm

theorem offsets_clearLatestNodeCorrections (nodes : List GraphNode) :
    (clearLatestNodeCorrections nodes).map (fun n => (n.staged, n.offsets)) =
      nodes.map fun n => (n.staged, n.offsets) := by
  simp [clearLatestNodeCorrections, Function.comp_def]

theorem allZero_clearLatestNodeCorrections (nodes : List GraphNode) :
    ∀ n ∈ clearLatestNodeCorrections nodes, AllZero n.corrections := by
  intro n hn
  obtain ⟨n', -, rfl⟩ := List.mem_map.mp hn
  exact allZero_map_zero _

theorem Closed.clearCorrections (h : g.Closed s) : g.Closed (g.clearCorrections s).2 := by
  have hcopies := filterMap_untilThrown shape_clear s.copies
  unfold DecodingTaskGraph.clearCorrections
  split
  · exact h
  · dsimp only
    split
    · exact { h with
        finalized := rfl
        snapshotValid := rfl
        inPlace := h.inPlace_congr hcopies rfl AllZero.firstCorrections_clear }
    · apply Shut.publishSnapshot
      -- a failed result stays as it is
      rw [GraphState.consume, if_pos h.status]
      exact { h.toShut with
        finalized := rfl
        snapshotValid := rfl
        nodes := allZero_clearLatestNodeCorrections s.nodes
        values := allZero_map_zero s.values
        inPlace := h.inPlace_congr hcopies (offsets_clearLatestNodeCorrections s.nodes)
          AllZero.firstCorrections_clear }

/-! ### The reset -/

/-- Replacing flags and progress leaves the frames as they are. -/
theorem frames_unreleaseLogical {outputs : List GraphOutput}
    (h : ∀ o ∈ outputs, AllZero o.stager.bits) : ∀ o ∈ unreleaseLogical outputs, AllZero o.stager.bits := by
  intro o ho
  obtain ⟨o', ho', rfl⟩ := List.mem_map.mp ho
  split <;> exact h o' ho'

theorem frames_hide (s : GraphState σ) : ∀ o ∈ s.hide.outputs, AllZero o.stager.bits := by
  apply frames_unreleaseLogical
  intro o ho
  obtain ⟨o', -, rfl⟩ := List.mem_map.mp ho
  exact allZero_map_zero _

theorem frames_fail {message : String} (h : ∀ o ∈ s.outputs, AllZero o.stager.bits) :
    ∀ o ∈ (s.fail message).outputs, AllZero o.stager.bits := by
  apply frames_unreleaseLogical
  intro o ho
  obtain ⟨o', ho', rfl⟩ := List.mem_map.mp ho
  exact h o' ho'

theorem beginReset_copies (s : GraphState σ) : (g.beginReset s).copies = s.copies := by
  rw [beginReset, publishSnapshot_copies]
  rfl

/-- The call throws what a node's reset throws. -/
theorem resetDecoder_fst (s : GraphState σ) : (g.resetDecoder s).1 = (resetNodes s.copies).1 := by
  rw [resetDecoder, beginReset_copies]
  rcases (resetNodes s.copies).1 with _ | _ | _ <;> rfl

theorem beginReset_async (s : GraphState σ) : (g.beginReset s).async.active = s.async.active ∧
    (g.beginReset s).async.needsReset = true ∧ (g.beginReset s).async.snapshotValid = false := by
  unfold beginReset publishSnapshot
  split <;> exact ⟨rfl, rfl, rfl⟩

theorem beginReset_toStreamingState (s : GraphState σ) : (g.beginReset s).toStreamingState =
    (GraphState.hide { s with finalized := false }).toStreamingState :=
  publishSnapshot_toStreamingState _

/-- What a reset leaves that is caught. -/
theorem resetDecoder_standard {what : String}
    (hthrow : (resetNodes s.copies).1 = some (.standard what)) :
    (g.resetDecoder s).2 = g.publishSnapshot (GraphState.fail
      { g.beginReset s with copies := (resetNodes s.copies).2 } ("reset_decoder: " ++ what)) := by
  rw [resetDecoder, beginReset_copies, hthrow]
  rfl

/-- What a reset leaves that is not caught. -/
theorem resetDecoder_other (hthrow : (resetNodes s.copies).1 = some .other) :
    (g.resetDecoder s).2 = { g.beginReset s with copies := (resetNodes s.copies).2 } := by
  rw [resetDecoder, beginReset_copies, hthrow]
  rfl

theorem readsInPlace_resetDecoder {what : String} (nObs : Nat)
    (hthrow : (resetNodes s.copies).1 = some (.standard what)) :
    (g.resetDecoder s).2.readsInPlace nObs = s.readsInPlace nObs ∧
      (g.resetDecoder s).2.copies = (resetNodes s.copies).2 := by
  have hcopies : (g.resetDecoder s).2.copies = (resetNodes s.copies).2 := by
    rw [resetDecoder_standard hthrow, publishSnapshot_copies]
    rfl
  refine ⟨readsInPlace_congr ?_ ?_, hcopies⟩
  · rw [hcopies]
    exact filterMap_shape_resetNodes s.copies
  · rw [resetDecoder_standard hthrow, publishSnapshot_toStreamingState]
    show (g.beginReset s).nodes.map _ = _
    rw [beginReset_toStreamingState]
    exact offsets_clearLatestNodeCorrections s.nodes

/-- A reset that is caught fails the graph, and its readers are handed that. -/
theorem resetDecoder_closed {what : String} (hthrow : (resetNodes s.copies).1 = some (.standard what))
    (hinactive : g.asyncStreaming = true → s.async.active = false) (hclean : g.FailsCleanly s) :
    g.Closed (g.resetDecoder s).2 := by
  obtain ⟨hactive, hneeds, hvalid⟩ := beginReset_async (g := g) s
  have hstate := beginReset_toStreamingState (g := g) s
  have hplaces := readsInPlace_resetDecoder (g := g) g.nObs hthrow
  rw [resetDecoder_standard hthrow] at hplaces ⊢
  apply Shut.publishSnapshot
  refine ⟨rfl, ?_, ?_, frames_fail ?_, ?_, unreleased_unreleaseLogical _, hneeds, hvalid, ?_, ?_⟩
  · show (g.beginReset s).finalized = false
    rw [hstate]
    rfl
  · show ∀ n ∈ (g.beginReset s).nodes, AllZero n.corrections
    rw [hstate]
    exact allZero_clearLatestNodeCorrections s.nodes
  · show ∀ o ∈ (g.beginReset s).outputs, AllZero o.stager.bits
    rw [hstate]
    exact frames_hide _
  · show AllZero (g.beginReset s).values
    rw [hstate]
    exact allZero_map_zero s.values
  · intro hasync
    exact hactive.trans (hinactive hasync)
  · intro hasync hconflict hplace
    apply hclean.cleared hasync hconflict
    rw [← hplaces.1, ← hplace]
    exact readsInPlace_congr (by rw [publishSnapshot_copies]) (by rw [publishSnapshot_toStreamingState])

/-- Until the nodes have reset, a reader sees the result pending. -/
theorem resultStatus_resetting (s : GraphState σ) (copies : List (NodeCopies σ)) :
    g.resultStatus { g.beginReset s with copies := copies } = .pending := by
  obtain ⟨-, -, hvalid⟩ := beginReset_async (g := g) s
  rw [resultStatus, readSnapshot_of_invalid (s := { g.beginReset s with copies := copies }) hvalid]
  split
  · next hasync =>
    show (g.beginReset s).async.readSnapshot.status = _
    rw [beginReset, publishSnapshot, if_pos hasync]
    rfl
  · show (g.beginReset s).status = _
    rw [beginReset_toStreamingState]
    rfl

/-- Where the result is hidden after a reset that has thrown, the reset has failed cleanly. -/
theorem failsCleanly_of_hidden {t : Thrown} (hthrow : (resetNodes s.copies).1 = some t)
    (h : g.Hidden (g.resetDecoder s).2) : g.FailsCleanly s := by
  cases t with
  | other =>
    have hstatus := h.status
    rw [resetDecoder_other hthrow, resultStatus_resetting] at hstatus
    cases hstatus
  | standard what =>
    refine ⟨by rw [hthrow]; nofun, fun hasync hconflict hplace => ?_⟩
    obtain ⟨hplaces, hcopies⟩ := readsInPlace_resetDecoder (g := g) g.nObs hthrow
    have hread : (g.getObsCorrections (g.resetDecoder s).2).1 =
        .ok (firstCorrections (resetNodes s.copies).2) := by
      rw [getObsCorrections, if_neg (Bool.eq_false_iff.mp hasync), requireStreamingSupport, hconflict]
      dsimp only
      rw [if_pos (hplaces.trans hplace), hcopies]
    exact h.corrections _ hread

/-! ## Runs of calls -/

end DecodingTaskGraph

inductive GraphCall where
  | streamingResult
  | getObsCorrections
  | getLogicalMeasurements (first count : Nat)
  | enqueueSyndrome (msyn : List UInt8) (type : Option RoundType)
  | clearCorrections
  | resetDecoder

namespace DecodingTaskGraph

variable {σ : Type} (g : DecodingTaskGraph σ)

def call (s : GraphState σ) : GraphCall → GraphState σ
  | .streamingResult => (g.streamingResult s).2
  | .getObsCorrections => (g.getObsCorrections s).2
  | .getLogicalMeasurements first count => (g.getLogicalMeasurements first count s).2
  | .enqueueSyndrome msyn type => (g.enqueueSyndrome msyn type s).2
  | .clearCorrections => (g.clearCorrections s).2
  | .resetDecoder => (g.resetDecoder s).2

@[grind =] def Unrecovered : GraphState σ → List GraphCall → Prop
  | _, [] => True
  | s, c :: calls => (c = .resetDecoder → (g.resetDecoder s).1 ≠ none) ∧ Unrecovered (g.call s c) calls

@[grind =] def FailCleanly : GraphState σ → List GraphCall → Prop
  | _, [] => True
  | s, c :: calls => (c = .resetDecoder → g.FailsCleanly s) ∧ FailCleanly (g.call s c) calls

@[grind =] def HiddenThroughout : GraphState σ → List GraphCall → Prop
  | s, [] => g.Hidden s
  | s, c :: calls => g.Hidden s ∧ HiddenThroughout (g.call s c) calls

variable {g} {s : GraphState σ} {c : GraphCall} {calls : List GraphCall}

/-- A reset of a graph that no session holds. -/
theorem resetDecoder_closed_of_throws (hthrow : (g.resetDecoder s).1 ≠ none)
    (hinactive : g.asyncStreaming = true → s.async.active = false) (hclean : g.FailsCleanly s) :
    g.Closed (g.resetDecoder s).2 := by
  rw [resetDecoder_fst] at hthrow
  obtain ⟨t, ht⟩ := Option.ne_none_iff_exists'.mp hthrow
  cases t with
  | other => exact absurd ht hclean.caught
  | standard what => exact resetDecoder_closed ht hinactive hclean

theorem Closed.call (h : g.Closed s) (hfails : c = .resetDecoder → (g.resetDecoder s).1 ≠ none)
    (hclean : c = .resetDecoder → g.FailsCleanly s) : g.Closed (g.call s c) := by
  cases c with
  | streamingResult => exact h.streamingResult
  | getObsCorrections => exact h.getObsCorrections
  | getLogicalMeasurements first count => exact h.getLogicalMeasurements first count
  | enqueueSyndrome msyn type => exact h.enqueueSyndrome msyn type
  | clearCorrections => exact h.clearCorrections
  | resetDecoder => exact resetDecoder_closed_of_throws (hfails rfl) h.inactive (hclean rfl)

theorem Closed.hiddenThroughout (h : g.Closed s) (hfails : g.Unrecovered s calls)
    (hclean : g.FailCleanly s calls) : g.HiddenThroughout s calls := by
  induction calls generalizing s with
  | nil => exact h.hidden
  | cons c calls ih => exact ⟨h.hidden, ih (h.call hfails.1 hclean.1) hfails.2 hclean.2⟩

theorem HiddenThroughout.head (h : g.HiddenThroughout s calls) : g.Hidden s := by
  cases calls with
  | nil => exact h
  | cons c calls => exact h.1

theorem HiddenThroughout.failCleanly (h : g.HiddenThroughout s calls) (hfails : g.Unrecovered s calls) :
    g.FailCleanly s calls := by
  induction calls generalizing s with
  | nil => trivial
  | cons c calls ih =>
    refine ⟨?_, ih h.2 hfails.2⟩
    rintro rfl
    have hthrow := hfails.1 rfl
    rw [resetDecoder_fst] at hthrow
    obtain ⟨t, ht⟩ := Option.ne_none_iff_exists'.mp hthrow
    exact failsCleanly_of_hidden ht h.2.head

end DecodingTaskGraph

open DecodingTaskGraph

variable {σ : Type}

/-- Where a node's reset throws, so does the call; and as long as no reset succeeds, the result is hidden
exactly if every one fails cleanly. -/
theorem failedReset_hidden_iff (g : DecodingTaskGraph σ) (s settled : GraphState σ)
    (hsettles : g.Settles s settled) (calls : List GraphCall) (thrown : Thrown)
    (hthrow : (resetNodes settled.copies).1 = some thrown)
    (hfails : g.Unrecovered (g.resetDecoder settled).2 calls) :
    (g.resetDecoder settled).1 = some thrown ∧
      (g.HiddenThroughout (g.resetDecoder settled).2 calls ↔
        g.FailsCleanly settled ∧ g.FailCleanly (g.resetDecoder settled).2 calls) := by
  have hinactive : g.asyncStreaming = true → settled.async.active = false := by
    intro hasync
    unfold Settles at hsettles
    split at hsettles
    · exact hsettles.1
    · next hnot =>
      rw [hsettles]
      exact Bool.eq_false_iff.mpr fun hactive => hnot ⟨hasync, hactive⟩
  have hcall : (g.resetDecoder settled).1 = some thrown := (resetDecoder_fst settled).trans hthrow
  refine ⟨hcall, fun h => ?_, fun ⟨hclean, hlater⟩ => ?_⟩
  · exact ⟨failsCleanly_of_hidden hthrow h.head, h.failCleanly hfails⟩
  · exact (resetDecoder_closed_of_throws (by rw [hcall]; nofun) hinactive hclean).hiddenThroughout
      hfails hlater

/-! ## A graph of one node whose reset throws -/

namespace ThrowingNode

/-- A streaming node backed by a decoder, whose state is its corrections. Its reset clears them and then
throws. -/
def node (thrown : Thrown) : TaskGraphNode (List UInt8) where
  resetDecoder := some fun corrections => (some thrown, corrections.map fun _ => 0)
  streaming := some {
    numObservables := 1
    corrections := id
    clearCorrections := fun corrections => (none, corrections.map fun _ => 0)
    resetStreamingState := fun corrections => (none, corrections.map fun _ => 0)
    corrections_clear := fun corrections => .inl (allZero_map_zero corrections) }

def graph (asyncStreaming : Bool) : DecodingTaskGraph (List UInt8) where
  nObs := 1
  nLogical := 0
  streamingConflict := none
  asyncStreaming := asyncStreaming
  record := fun _ _ s => s

/-- The output, which the node alone contributes to. -/
@[grind =] def output : GraphOutput where
  config := {
    name := "output"
    logical := none
    contributors := [0]
    fed := [0]
    cancelled := []
    staged := false
    schedule := .ofCounts 1 1 0 0
    valueOffset := 0 }
  progress := ⟨1, 0, 1, .complete⟩
  closure := .notChecked
  released := []
  publications := 1
  slowest := 1
  fireOrdinal := 1
  consumed := 0
  stager := {
    frontier := 0
    begin := 0
    generation := 0
    bits := []
    whole := []
    hasWhole := false
    intervals := []
    pending := []
    spare := []
    capacity := 0 }

def streaming : StreamingState where
  nodes := [⟨false, false, [0], 1, none, [1], none, none⟩]
  outputs := [output]
  values := [1]
  generation := 1
  status := .complete
  closure := .notChecked
  completedOperations := 1
  operationCompleted := true
  retiringGeneration := 1
  finalized := true

/-- A shot that has ended, with one correction, and no session under way. -/
def ended (thrown : Thrown) : GraphState (List UInt8) where
  toStreamingState := streaming
  copies := [⟨node thrown, [1], []⟩]
  shotEpoch := 0
  resultRevision := 1
  error := ""
  shotOpen := true
  shotResets := 0
  async :=
    let result : StreamingResult := ⟨0, 1, 1, 1, .complete, true, "", [output.result], [1], .notChecked⟩
    ⟨false, false, true, result, result⟩

def calls : List GraphCall :=
  [.enqueueSyndrome [1] (some .final), .clearCorrections, .getObsCorrections, .resetDecoder, .streamingResult]

end ThrowingNode

open ThrowingNode

/-- A node whose reset throws what is caught. -/
theorem failedReset_hidden_iff_standard :
    let settled := ended (.standard "failed to reset")
    ((graph false).resetDecoder settled).1 = some (.standard "failed to reset") ∧
      ((graph false).HiddenThroughout ((graph false).resetDecoder settled).2 calls ↔
        (graph false).FailsCleanly settled ∧
          (graph false).FailCleanly ((graph false).resetDecoder settled).2 calls) := by
  apply failedReset_hidden_iff (graph false) (ended (.standard "failed to reset")) _ _ calls _ rfl
  · exact ⟨nofun, nofun, nofun, fun _ => nofun, nofun, trivial⟩
  · show ite _ _ _
    rw [if_neg nofun]

/-- A node whose reset throws something else: the result is pending, and a record gets in. -/
theorem not_failedReset_hidden :
    let reset := (graph false).resetDecoder (ended .other)
    reset.1 = some .other ∧ (graph false).resultStatus reset.2 = .pending ∧
      ((graph false).enqueueSyndrome [1] (some .bulk) reset.2).1 = none ∧
      ¬ (graph false).Hidden reset.2 := by
  refine ⟨rfl, rfl, rfl, fun h => ?_⟩
  have hstatus : StreamingStatus.pending = .failed := h.status
  cases hstatus

end CudaqQec
