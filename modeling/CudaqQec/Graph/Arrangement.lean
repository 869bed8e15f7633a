import CudaqQec.Graph.RecordMerge

/-!
# The arrangement of a record

The deltas of a record come in the order in which the fires of its nodes finished. Those that commit no
round, or the whole shot, are XORed on and may come in any order; those that commit rounds are in the order
of the rounds. So a record is folded to the same where the latter begin at different rounds.

* `OutputStager.stageAll_congr`: what a stager makes of deltas, in one order or another.
* `applyRecordContext_arrangement`: a record is folded to the same in every arrangement.
-/

namespace CudaqQec

open Checked Delta Frames

/-! ## A stager -/

namespace OutputStager

/-! ## Settling a stager -/

/-- Vectors XORed onto the frame, and others held for the end of the shot. -/
def settle (es ws : List (List UInt8)) (s : OutputStager) : OutputStager :=
  { s with
    bits := xorAll s.bits es
    whole := xorAll s.whole ws
    hasWhole := s.hasWhole || !ws.isEmpty }

variable {name : String} {s : OutputStager} {d : Delta} {es ws : List (List UInt8)}

theorem settle_nil : settle [] [] s = s := by
  simp [settle, xorAll]

theorem settle_settle (es' ws' : List (List UInt8)) :
    (s.settle es ws).settle es' ws' = s.settle (es ++ es') (ws ++ ws') := by
  have hempty : (ws ++ ws').isEmpty = (ws.isEmpty && ws'.isEmpty) := by
    cases ws <;> simp
  simp only [settle, xorAll_append, Bool.or_assoc, hempty, Bool.not_and]

/-! ## Staging and settling commute -/

theorem stageDelta_of_whole (h : d.stop = wholeShot) : s.stageDelta name d = .ok (s.settle [] [d.load]) := by
  rw [stageDelta, if_pos h]
  simp [settle, xorAll]

theorem stageDelta_of_empty (h : d.stop ≠ wholeShot) (hempty : d.stop ≤ d.begin) :
    s.stageDelta name d = .ok (s.settle [d.load] []) := by
  rw [stageDelta, if_neg h, if_pos hempty]
  simp [settle, xorAll]

/-- The frontier goes on whatever is XORed onto the frame. -/
theorem advance_settle (s : OutputStager) (es ws : List (List UInt8)) (advanced : Bool) (pending : List Nat) :
    advance (s.settle es ws) advanced pending =
      ((advance s advanced pending).1.settle es ws, (advance s advanced pending).2) := by
  induction pending generalizing s advanced with
  | nil => rfl
  | cons next rest ih =>
    let s' := { s with
      bits := xorInto s.bits (intervalAt s.intervals next).load
      frontier := (intervalAt s.intervals next).stop
      spare := s.spare ++ [next] }
    have hsettle : s'.settle es ws = { s.settle es ws with
        bits := xorInto (s.settle es ws).bits (intervalAt s.intervals next).load
        frontier := (intervalAt s.intervals next).stop
        spare := s.spare ++ [next] } := by
      simp only [s', settle, xorAll_xorInto]
    by_cases hnext : (intervalAt s.intervals next).begin = s.frontier
    · have hwith : advance s advanced (next :: rest) = advance s' true rest := by
        rw [advance, if_pos hnext]
      have hsettled : advance (s.settle es ws) advanced (next :: rest) = advance (s'.settle es ws) true rest := by
        rw [hsettle, advance]
        exact if_pos hnext
      rw [hwith, hsettled]
      exact ih s' true
    · have hwith : advance s advanced (next :: rest) = ({ s with pending := next :: rest }, advanced) := by
        rw [advance, if_neg hnext]
      rw [hwith, advance]
      exact if_neg hnext

/-- So does a delta that commits rounds. -/
theorem stageDelta_settle (h : d.stop ≠ wholeShot) (hproper : d.begin < d.stop) :
    (s.settle es ws).stageDelta name d = (s.stageDelta name d).map (settle es ws) := by
  have hnot : ¬ d.stop ≤ d.begin := by omega
  unfold stageDelta
  simp only [h, hnot, if_false]
  by_cases hbehind : d.begin < s.frontier
  · simp only [settle, hbehind, if_true]
    rfl
  by_cases hfull : s.pending.length = s.capacity
  · simp only [settle, hbehind, hfull, if_true, if_false]
    rfl
  change (if d.begin < s.frontier then _ else if s.pending.length = s.capacity then _ else _) = _
  have hspare : (s.settle es ws).spare = s.spare := rfl
  rw [if_neg hbehind, if_neg hfull, if_neg hbehind, if_neg hfull, hspare]
  cases s.spare.getLast? with
  | none => rfl
  | some slot =>
    let s' := { s with
      intervals := s.intervals.set slot d
      spare := s.spare.dropLast }
    let before := fun entry => decide ((intervalAt s.intervals entry).begin ≤ d.begin)
    have hadvance := advance_settle s' es ws false
      (s.pending.takeWhile before ++ slot :: s.pending.dropWhile before)
    let grown := fun r : OutputStager × Bool =>
      if r.2 then { r.1 with generation := r.1.generation + 1 } else r.1
    have hgrown (r : OutputStager × Bool) : grown (r.1.settle es ws, r.2) = (grown r).settle es ws := by
      obtain ⟨t, advanced⟩ := r
      cases advanced <;> rfl
    exact congrArg Except.ok ((congrArg grown hadvance).trans (hgrown _))

theorem stageAll_append (name : String) (s : OutputStager) (ds es : List Delta) :
    stageAll name s (ds ++ es) = (stageAll name s ds >>= fun s => stageAll name s es) := List.foldlM_append ..

theorem stageAll_cons (name : String) (s : OutputStager) (d : Delta) (ds : List Delta) :
    stageAll name s (d :: ds) = (s.stageDelta name d >>= fun s => stageAll name s ds) := List.foldlM_cons ..

theorem stageAll_nil (name : String) (s : OutputStager) : stageAll name s [] = .ok s := rfl

/-- What commits no round is XORed on, before or after. -/
theorem stageAll_settle (ds : List Delta) :
    stageAll name s ds = stageAll name (s.settle (loads (empties ds)) (loads (wholes ds))) (proper ds) := by
  induction ds generalizing s with
  | nil => exact (congrArg _ settle_nil).symm
  | cons d ds ih =>
    by_cases hwhole : d.stop = wholeShot
    · have hstep : stageAll name s (d :: ds) = stageAll name (s.settle [] [d.load]) ds := by
        rw [stageAll, List.foldlM_cons, stageDelta_of_whole hwhole, ok_bind, ← stageAll]
      rw [hstep, ih, settle_settle]
      simp [proper, empties, wholes, isWhole, hwhole, loads]
    by_cases hempty : d.stop ≤ d.begin
    · have hstep : stageAll name s (d :: ds) = stageAll name (s.settle [d.load] []) ds := by
        rw [stageAll, List.foldlM_cons, stageDelta_of_empty hwhole hempty, ok_bind, ← stageAll]
      rw [hstep, ih, settle_settle]
      simp [proper, empties, wholes, isWhole, hwhole, hempty, loads]
    · have hproper : proper (d :: ds) = d :: proper ds := by
        simp [proper, isWhole, hwhole, not_le.mp hempty]
      have hsettle : s.settle (loads (empties (d :: ds))) (loads (wholes (d :: ds))) =
          s.settle (loads (empties ds)) (loads (wholes ds)) := by
        simp [empties, wholes, isWhole, hwhole, hempty]
      rw [hproper, hsettle, stageAll, stageAll, List.foldlM_cons, List.foldlM_cons,
        stageDelta_settle hwhole (not_le.mp hempty)]
      cases s.stageDelta name d with
      | error e => rfl
      | ok s' => exact ih

/-- A stager comes to the same with deltas in another order, if those that commit rounds keep theirs. -/
theorem stageAll_congr {ds ds' : List Delta} (hperm : ds.Perm ds') (hproper : proper ds = proper ds') :
    stageAll name s ds = stageAll name s ds' := by
  have hsettle : s.settle (loads (empties ds)) (loads (wholes ds)) =
      s.settle (loads (empties ds')) (loads (wholes ds')) := by
    have hempties : (loads (empties ds)).Perm (loads (empties ds')) := (hperm.filter _).map _
    have hwholes : (loads (wholes ds)).Perm (loads (wholes ds')) := (hperm.filter _).map _
    rw [settle, settle, xorAll_perm _ hempties, xorAll_perm _ hwholes, hwholes.isEmpty_eq]
  rw [stageAll_settle ds, stageAll_settle ds', hproper, hsettle]

end OutputStager

/-! ## An output -/

namespace OutputConfig

variable (config : OutputConfig)

/-! ## The deltas of one output -/

/-- What a delta is for an output: itself, its interval alone, both, or nothing. -/
def deltasOf (d : QueuedDelta) : List Delta :=
  (if d.1 ∈ config.fed then [d.2.delta] else []) ++
    if d.1 ∈ config.cancelled then [{ d.2.delta with load := [] }] else []

def commitsRounds (d : QueuedDelta) : Bool :=
  decide (d.1 ∈ config.fed ∨ d.1 ∈ config.cancelled) &&
    (!isWhole d.2.delta && decide (d.2.delta.begin < d.2.delta.stop))

/-- Of the deltas of one operation, those that commit rounds of an output begin at different rounds. -/
def Apart (ds : List QueuedDelta) : Prop :=
  (ds.filter config.commitsRounds).Pairwise fun a b => a.2.key ≠ b.2.key

variable {config} {ds ds' : List QueuedDelta}

theorem mem_deltasOf {d : QueuedDelta} {e : Delta} (h : e ∈ config.deltasOf d) :
    e.begin = d.2.delta.begin ∧ e.stop = d.2.delta.stop := by
  unfold deltasOf at h
  rcases List.mem_append.mp h with h | h
  · split at h
    · cases List.mem_singleton.mp h
      exact ⟨rfl, rfl⟩
    · cases h
  · split at h
    · cases List.mem_singleton.mp h
      exact ⟨rfl, rfl⟩
    · cases h

theorem proper_deltasOf (d : QueuedDelta) :
    proper (config.deltasOf d) = if config.commitsRounds d then config.deltasOf d else [] := by
  have hsame : ∀ e ∈ config.deltasOf d, (!isWhole e && decide (e.begin < e.stop)) =
      (!isWhole d.2.delta && decide (d.2.delta.begin < d.2.delta.stop)) := by
    intro e he
    obtain ⟨hbegin, hstop⟩ := mem_deltasOf he
    rw [isWhole, isWhole, hbegin, hstop]
  have hproper : proper (config.deltasOf d) =
      (config.deltasOf d).filter fun _ => !isWhole d.2.delta && decide (d.2.delta.begin < d.2.delta.stop) :=
    List.filter_congr hsame
  rw [hproper, commitsRounds]
  cases !isWhole d.2.delta && decide (d.2.delta.begin < d.2.delta.stop) with
  | false => simp
  | true =>
    by_cases hmem : d.1 ∈ config.fed ∨ d.1 ∈ config.cancelled
    · simp [hmem]
    · rw [not_or] at hmem
      simp [hmem, deltasOf]

theorem proper_flatMap_deltasOf (ds : List QueuedDelta) :
    proper (ds.flatMap config.deltasOf) = (ds.filter config.commitsRounds).flatMap config.deltasOf := by
  induction ds with
  | nil => rfl
  | cons d ds ih =>
    rw [List.flatMap_cons, proper_append, ih, proper_deltasOf]
    by_cases h : config.commitsRounds d = true
    · rw [List.filter_cons_of_pos h, if_pos h, List.flatMap_cons]
    · rw [List.filter_cons_of_neg h, if_neg h, List.nil_append]

theorem Apart.perm (h : config.Apart ds) (hperm : ds.Perm ds') : config.Apart ds' :=
  ((hperm.filter _).pairwise_iff fun hne => hne.symm).mp h

theorem Apart.sublist (h : config.Apart ds) (hsub : ds'.Sublist ds) : config.Apart ds' :=
  List.Pairwise.sublist (hsub.filter _) h

/-- In order, the deltas that commit rounds of an output are the same list. -/
theorem Apart.filter_eq (h : config.Apart ds) (hperm : ds.Perm ds') (hsorted : ds.Pairwise QueuedDelta.le)
    (hsorted' : ds'.Pairwise QueuedDelta.le) :
    ds.filter config.commitsRounds = ds'.filter config.commitsRounds := by
  have hlt : ∀ es : List QueuedDelta, config.Apart es → es.Pairwise QueuedDelta.le →
      (es.filter config.commitsRounds).Pairwise fun a b => a.2.key < b.2.key := by
    intro es hapart hle
    exact (hapart.and (hle.sublist List.filter_sublist)).imp fun ⟨hne, hle⟩ =>
      lt_of_le_of_ne (QueuedDelta.le_iff.mp hle) hne
  refine (hperm.filter _).eq_of_pairwise ?_ (hlt ds h hsorted) (hlt ds' (h.perm hperm) hsorted')
  intro a b _ _ hab hba
  exact absurd hba hab.asymm

end OutputConfig

namespace GraphOutput

variable {o : GraphOutput} {ds ds' : List QueuedDelta}

theorem stage_eq (o : GraphOutput) (d : QueuedDelta) :
    o.stage d = (o.stager.stageAll o.config.name (o.config.deltasOf d)).map fun stager =>
      { o with stager := stager } := by
  unfold stage OutputConfig.deltasOf
  by_cases hfed : d.1 ∈ o.config.fed
  · by_cases hcancelled : d.1 ∈ o.config.cancelled
    · simp only [hfed, hcancelled, if_true, List.singleton_append, OutputStager.stageAll_cons,
        OutputStager.stageAll_nil]
      cases o.stager.stageDelta o.config.name d.2.delta with
      | error e => rfl
      | ok s =>
        rw [ok_bind, ok_bind]
        cases s.stageDelta o.config.name { d.2.delta with load := [] } <;> rfl
    · simp only [hfed, hcancelled, if_true, if_false, List.singleton_append, OutputStager.stageAll_cons,
        OutputStager.stageAll_nil]
      cases o.stager.stageDelta o.config.name d.2.delta <;> rfl
  · by_cases hcancelled : d.1 ∈ o.config.cancelled
    · simp only [hfed, hcancelled, if_true, if_false, List.nil_append, OutputStager.stageAll_cons,
        OutputStager.stageAll_nil, ok_bind]
      cases o.stager.stageDelta o.config.name { d.2.delta with load := [] } <;> rfl
    · simp only [hfed, hcancelled, if_false, List.nil_append, OutputStager.stageAll_nil]
      rfl

theorem foldlM_stage (ds : List QueuedDelta) (o : GraphOutput) :
    ds.foldlM (fun o d => stage d o) o =
      (o.stager.stageAll o.config.name (ds.flatMap o.config.deltasOf)).map fun stager =>
        { o with stager := stager } := by
  induction ds generalizing o with
  | nil => rfl
  | cons d ds ih =>
    rw [List.foldlM_cons, stage_eq, List.flatMap_cons, OutputStager.stageAll_append]
    cases o.stager.stageAll o.config.name (o.config.deltasOf d) with
    | error e => rfl
    | ok stager => exact ih { o with stager := stager }

/-- An output comes to the same with deltas in another order. -/
theorem foldlM_stage_congr (hapart : o.config.Apart ds) (hperm : ds.Perm ds')
    (hsorted : ds.Pairwise QueuedDelta.le) (hsorted' : ds'.Pairwise QueuedDelta.le) :
    ds.foldlM (fun o d => stage d o) o = ds'.foldlM (fun o d => stage d o) o := by
  have hproper : proper (ds.flatMap o.config.deltasOf) = proper (ds'.flatMap o.config.deltasOf) := by
    rw [OutputConfig.proper_flatMap_deltasOf, OutputConfig.proper_flatMap_deltasOf,
      hapart.filter_eq hperm hsorted hsorted']
  rw [foldlM_stage, foldlM_stage, OutputStager.stageAll_congr (hperm.flatMap_right _) hproper]

end GraphOutput

/-! ## The outputs -/

section Outputs

variable {outputs outputs' : List GraphOutput} {ds ds' : List QueuedDelta}

theorem exists_forall₂_iff {α β γ : Type} {R : α → β → Prop} {S : β → γ → Prop} {l : List α} {n : List γ} :
    (∃ m, List.Forall₂ R l m ∧ List.Forall₂ S m n) ↔ List.Forall₂ (fun a c => ∃ b, R a b ∧ S b c) l n := by
  constructor
  · rintro ⟨m, hR, hS⟩
    induction hR generalizing n with
    | nil =>
      cases hS
      exact .nil
    | cons hab _ ih =>
      cases hS with
      | cons hbc hS => exact .cons ⟨_, hab, hbc⟩ (ih hS)
  · intro h
    induction h with
    | nil => exact ⟨[], .nil, .nil⟩
    | cons habc _ ih =>
      obtain ⟨b, hab, hbc⟩ := habc
      obtain ⟨m, hR, hS⟩ := ih
      exact ⟨b :: m, .cons hab hR, .cons hbc hS⟩

/-- Each output takes the deltas on its own. -/
theorem foldlM_stageOutputs_eq_ok :
    ds.foldlM stageOutputs outputs = .ok outputs' ↔
      List.Forall₂ (fun o o' => ds.foldlM (fun o d => GraphOutput.stage d o) o = .ok o') outputs outputs' := by
  induction ds generalizing outputs with
  | nil =>
    have hsame : (fun o o' : GraphOutput => [].foldlM (fun o d => GraphOutput.stage d o) o = .ok o') = Eq := by
      funext o o'
      exact propext ⟨Except.ok.inj, congrArg Except.ok⟩
    rw [hsame, List.forall₂_eq_eq_eq]
    exact ⟨Except.ok.inj, congrArg Except.ok⟩
  | cons d ds ih =>
    rw [List.foldlM_cons, bind_eq_ok]
    simp only [stageOutputs, mapM_eq_ok, ih, exists_forall₂_iff, List.foldlM_cons, bind_eq_ok]

/-- The outputs come to the same with deltas in another order. -/
theorem foldlM_stageOutputs_congr (hapart : ∀ o ∈ outputs, o.config.Apart ds) (hperm : ds.Perm ds')
    (hsorted : ds.Pairwise QueuedDelta.le) (hsorted' : ds'.Pairwise QueuedDelta.le)
    (h : ds.foldlM stageOutputs outputs = .ok outputs') : ds'.foldlM stageOutputs outputs = .ok outputs' := by
  rw [foldlM_stageOutputs_eq_ok] at h ⊢
  induction h with
  | nil => exact .nil
  | cons hstage _ ih =>
    rw [GraphOutput.foldlM_stage_congr (hapart _ List.mem_cons_self) hperm hsorted hsorted'] at hstage
    exact .cons hstage (ih fun o ho => hapart o (.tail _ ho))

theorem map_config_of_foldlM (h : ds.foldlM stageOutputs outputs = .ok outputs') :
    outputs'.map (·.config) = outputs.map (·.config) := by
  rw [foldlM_stageOutputs_eq_ok] at h
  induction h with
  | nil => rfl
  | cons hstage _ ih =>
    rw [GraphOutput.foldlM_stage] at hstage
    rw [List.map_cons, List.map_cons, ih]
    cases hstager : OutputStager.stageAll _ _ _ with
    | error e =>
      rw [hstager] at hstage
      cases hstage
    | ok stager =>
      rw [hstager] at hstage
      cases hstage
      rfl

end Outputs

/-! ## Records -/

namespace NodeCapture

def unstaged (c : NodeCapture) : NodeCapture := { c with staged := [] }

/-- The same captures, each node's deltas in another order. -/
structure Rearranged (captures captures' : List NodeCapture) : Prop where
  staged : List.Forall₂ (fun c c' : NodeCapture => c.staged.Perm c'.staged) captures captures'
  unstaged : captures.map unstaged = captures'.map unstaged

namespace Rearranged

variable {captures captures' : List NodeCapture}

theorem symm (h : Rearranged captures captures') : Rearranged captures' captures where
  staged := h.staged.flip.imp fun _ _ hperm => hperm.symm
  unstaged := h.unstaged.symm

theorem perm_stagedDeltas (h : Rearranged captures captures') :
    (stagedDeltas captures).Perm (stagedDeltas captures') := by
  suffices hfrom : ∀ n, ((captures.zipIdx n).flatMap fun c => c.1.staged.map fun d => (c.2, d)).Perm
      ((captures'.zipIdx n).flatMap fun c => c.1.staged.map fun d => (c.2, d)) from hfrom 0
  have hstaged := h.staged
  clear h
  induction hstaged with
  | nil => exact fun _ => .refl _
  | cons hperm _ ih =>
    intro n
    rw [List.zipIdx_cons, List.zipIdx_cons, List.flatMap_cons, List.flatMap_cons]
    exact (hperm.map _).append (ih (n + 1))

/-- What does not look at the staged deltas is the same. -/
theorem map_getElem? {β : Type} (h : Rearranged captures captures') (g : NodeCapture → β)
    (hg : ∀ c, g c.unstaged = g c) (si : Nat) : (captures[si]?).map g = (captures'[si]?).map g := by
  have hsi := congrArg (fun cs : List NodeCapture => (cs[si]?).map g) h.unstaged
  simp only [List.getElem?_map, Option.map_map, Function.comp_def, hg] at hsi
  exact hsi

theorem addPublished_eq (h : Rearranged captures captures') (operation : Nat) (nodes : List GraphNode) :
    StreamingState.addPublished captures operation nodes =
      StreamingState.addPublished captures' operation nodes := by
  unfold StreamingState.addPublished
  congr 1
  funext si n
  rw [h.map_getElem? (fun c => c.published.getD operation 0) (fun _ => rfl)]

end Rearranged

end NodeCapture

namespace StreamingState

open NodeCapture RecordRun

/-! ## Operations of one key -/

theorem takeWhile_eq_filter {α : Type} {p : α → Bool} {l : List α}
    (h : l.Pairwise fun a b => p b = true → p a = true) :
    l.takeWhile p = l.filter p ∧ l.dropWhile p = l.filter fun a => !p a := by
  induction l with
  | nil => exact ⟨rfl, rfl⟩
  | cons a l ih =>
    rw [List.pairwise_cons] at h
    obtain ⟨htake, hdrop⟩ := ih h.2
    by_cases ha : p a = true
    · rw [List.takeWhile_cons_of_pos ha, List.dropWhile_cons_of_pos ha, List.filter_cons_of_pos ha,
        List.filter_cons_of_neg (by simp [ha]), htake, hdrop]
      exact ⟨rfl, rfl⟩
    · have hnone : ∀ b ∈ l, ¬ p b = true := fun b hb hpb => ha (h.1 b hb hpb)
      rw [List.takeWhile_cons_of_neg ha, List.dropWhile_cons_of_neg ha, List.filter_cons_of_neg ha,
        List.filter_cons_of_pos (by simp [ha]), List.filter_eq_nil_iff.mpr hnone,
        List.filter_eq_self.mpr fun b hb => by simp [hnone b hb]]
      exact ⟨rfl, rfl⟩

/-- Two arrangements of a record, before an operation. -/
structure Alike (operation : Nat) (f f' : Folding) : Prop where
  state : f.state = f'.state
  advanced : f.advanced = f'.advanced
  before : f.before = f'.before
  perm : f.queue.Perm f'.queue
  sorted : f.queue.Pairwise QueuedDelta.le
  sorted' : f'.queue.Pairwise QueuedDelta.le
  later : ∀ d ∈ f.queue, operation ≤ d.2.operation
  apart : ∀ config ∈ f.state.outputs.map (·.config), config.Apart f.queue

variable {captures captures' : List NodeCapture} {operations operation : Nat} {f f' g : Folding}

theorem takeWhile_belongs {queue : List QueuedDelta} (last : Bool) (hsorted : queue.Pairwise QueuedDelta.le)
    (hlater : ∀ d ∈ queue, operation ≤ d.2.operation) :
    queue.takeWhile (belongs last operation) = queue.filter (belongs last operation) ∧
      queue.dropWhile (belongs last operation) = queue.filter fun d => !belongs last operation d := by
  apply takeWhile_eq_filter
  refine hsorted.imp_of_mem ?_
  intro a b ha _ hle hb
  have := hlater a ha
  unfold belongs at hb ⊢
  cases last with
  | true => rfl
  | false =>
    rw [Bool.false_or, decide_eq_true_eq] at hb ⊢
    rcases hle with hlt | ⟨heq, -⟩ <;> omega

/-- The operation is counted alike. -/
theorem Alike.countFolding {outputs : List GraphOutput} (h : Alike operation f f')
    (hr : Rearranged captures captures')
    (hconfig : outputs.map (·.config) = f.state.outputs.map (·.config)) :
    Alike (operation + 1) (countFolding operations captures operation outputs f)
      (countFolding operations captures' operation outputs f') := by
  have hlater' : ∀ d ∈ f'.queue, operation ≤ d.2.operation := fun d hd => h.later d (h.perm.mem_iff.mpr hd)
  obtain ⟨-, hdrop⟩ := takeWhile_belongs (decide (operation + 1 = operations)) h.sorted h.later
  obtain ⟨-, hdrop'⟩ := takeWhile_belongs (decide (operation + 1 = operations)) h.sorted' hlater'
  have hperm := h.perm.filter fun d => !belongs (decide (operation + 1 = operations)) operation d
  rw [← hdrop, ← hdrop'] at hperm
  have hsorted := h.sorted.sublist (List.dropWhile_sublist (belongs (decide (operation + 1 = operations)) operation))
  have hsorted' := h.sorted'.sublist
    (List.dropWhile_sublist (belongs (decide (operation + 1 = operations)) operation))
  have hlater : ∀ d ∈ f.queue.dropWhile (belongs (decide (operation + 1 = operations)) operation),
      operation + 1 ≤ d.2.operation := by
    intro d hd
    rw [hdrop, List.mem_filter] at hd
    have := h.later d hd.1
    have hne : d.2.operation ≠ operation := by
      intro heq
      simp [belongs, heq] at hd
    omega
  have hapart : ∀ config ∈ outputs.map (·.config),
      config.Apart (f.queue.dropWhile (belongs (decide (operation + 1 = operations)) operation)) := by
    intro config hmem
    rw [hconfig] at hmem
    exact (h.apart config hmem).sublist (List.dropWhile_sublist _)
  obtain ⟨s, queue, advanced, before⟩ := f
  obtain ⟨s', queue', advanced', before'⟩ := f'
  obtain ⟨rfl, rfl, rfl, -, -, -, -, -⟩ := h
  unfold RecordRun.countFolding
  rw [hr.addPublished_eq]
  by_cases hlast : operation + 1 = operations
  · simp only [hlast, if_true] at hperm hsorted hsorted' hlater hapart ⊢
    exact ⟨rfl, rfl, rfl, hperm, hsorted, hsorted', hlater, hapart⟩
  · simp only [hlast, if_false] at hperm hsorted hsorted' hlater hapart ⊢
    exact ⟨rfl, rfl, rfl, hperm, hsorted, hsorted', hlater, hapart⟩

/-- An operation that returns in one arrangement returns in the other. -/
theorem Alike.foldOperation (h : Alike operation f f') (hr : Rearranged captures captures')
    (hok : foldOperation operations captures f operation = .ok g) :
    ∃ g', StreamingState.foldOperation operations captures' f' operation = .ok g' ∧
      Alike (operation + 1) g g' := by
  rw [foldOperation_eq, bind_eq_ok] at hok
  obtain ⟨outputs, hstage, hg⟩ := hok
  have hlater' : ∀ d ∈ f'.queue, operation ≤ d.2.operation := fun d hd => h.later d (h.perm.mem_iff.mpr hd)
  obtain ⟨htake, -⟩ := takeWhile_belongs (decide (operation + 1 = operations)) h.sorted h.later
  obtain ⟨htake', -⟩ := takeWhile_belongs (decide (operation + 1 = operations)) h.sorted' hlater'
  have hstage' : (f'.queue.takeWhile (belongs (decide (operation + 1 = operations)) operation)).foldlM
      stageOutputs f'.state.outputs = .ok outputs := by
    rw [← h.state]
    refine foldlM_stageOutputs_congr ?_ ?_ ?_ ?_ hstage
    · intro o ho
      exact (h.apart _ (List.mem_map_of_mem ho)).sublist (List.takeWhile_sublist _)
    · rw [htake, htake']
      exact h.perm.filter _
    · exact h.sorted.sublist (List.takeWhile_sublist _)
    · exact h.sorted'.sublist (List.takeWhile_sublist _)
  refine ⟨RecordRun.countFolding operations captures' operation outputs f', ?_, ?_⟩
  · rw [foldOperation_eq, hstage', ok_bind]
  · cases hg
    exact h.countFolding hr (map_config_of_foldlM hstage)

theorem Alike.foldOperations {l : Nat} (h : Alike operation f f') (hr : Rearranged captures captures')
    (hok : (List.range' operation l).foldlM (StreamingState.foldOperation operations captures) f = .ok g) :
    ∃ g', (List.range' operation l).foldlM (StreamingState.foldOperation operations captures') f' = .ok g' ∧
      Alike (operation + l) g g' := by
  induction l generalizing operation f f' with
  | zero =>
    cases hok
    exact ⟨f', rfl, h⟩
  | succ l ih =>
    rw [List.range'_succ, List.foldlM_cons, bind_eq_ok] at hok
    obtain ⟨f₁, hfirst, hrest⟩ := hok
    obtain ⟨f₁', hfirst', halike⟩ := h.foldOperation hr hfirst
    obtain ⟨g', hrest', hg⟩ := ih halike hrest
    refine ⟨g', ?_, ?_⟩
    · rw [List.range'_succ, List.foldlM_cons, hfirst', ok_bind, hrest']
    · rwa [Nat.add_assoc, Nat.add_comm 1 l] at hg

/-! ## One capture -/

/-- However the deltas of a record are arranged and merged, it is folded to the same. -/
theorem apply_congr {m m' : DeltaMerge} {s : StreamingState} {x : StreamingState × Nat × Nat}
    (hr : Rearranged captures captures')
    (hapart : ∀ o ∈ s.outputs, o.config.Apart (stagedDeltas captures))
    (h : s.apply m operations captures = .ok x) : s.apply m' operations captures' = .ok x := by
  rw [apply, bind_eq_ok] at h
  obtain ⟨g, hfold, hx⟩ := h
  have hstart : Alike 0 (⟨s, m.merge (stagedDeltas captures), 0, s.generation⟩ : Folding)
      ⟨s, m'.merge (stagedDeltas captures'), 0, s.generation⟩ := by
    refine ⟨rfl, rfl, rfl, ?_, m.sorted _, m'.sorted _, fun _ _ => Nat.zero_le _, ?_⟩
    · exact (m.perm _).trans (hr.perm_stagedDeltas.trans (m'.perm _).symm)
    · intro config hconfig
      obtain ⟨o, ho, rfl⟩ := List.mem_map.mp hconfig
      exact (hapart o ho).perm (m.perm _).symm
  rw [List.range_eq_range'] at hfold
  obtain ⟨g', hfold', halike⟩ := hstart.foldOperations hr hfold
  rw [apply, List.range_eq_range', hfold', ok_bind]
  rw [← hx, halike.state, halike.advanced, halike.before]
  have hcaptures : ∀ (si : Nat) (n : GraphNode), ((captures[si]?).map fun c => applyCapture c n).getD n =
      ((captures'[si]?).map fun c => applyCapture c n).getD n := by
    intro si n
    rw [hr.map_getElem? (fun c => applyCapture c n) fun _ => rfl]
  simp only [hcaptures]

end StreamingState

open NodeCapture

/-! ## Two arrangements -/

def stableAlgorithms : RecordAlgorithms where
  heaps := HeapMerge.sortedHeaps
  sort l := l.insertionSort fun a b => b.key ≤ a.key
  perm_sort := List.perm_insertionSort _
  pairwise_sort := by
    have : Std.Total fun a b : StagedDelta => b.key ≤ a.key := ⟨fun a b => le_total b.key a.key⟩
    have : IsTrans StagedDelta fun a b => b.key ≤ a.key := ⟨fun _ _ _ hab hbc => hbc.trans hab⟩
    exact List.pairwise_insertionSort _

/-- A record of at least one operation stages every delta once, in order, and leaves none; and it is folded
to the same however its deltas are arranged, where of one operation those that commit rounds of an output
begin at different rounds. -/
theorem applyRecordContext_arrangement (algorithms algorithms' : RecordAlgorithms) {operations : Nat}
    (hoperations : 0 < operations) (s : StreamingState) {captures captures' : List NodeCapture}
    (hr : Rearranged captures captures') (hapart : ∀ o ∈ s.outputs, o.config.Apart (stagedDeltas captures)) :
    (∀ r, applyRecordContext algorithms operations captures s = .ok r → r.Folded captures s ∧
      ∃ r', applyRecordContext algorithms' operations captures' s = .ok r' ∧ r'.Folded captures' s ∧
        r'.state = r.state ∧ r'.advanced = r.advanced ∧ r'.before = r.before) ∧
    ∀ r', applyRecordContext algorithms' operations captures' s = .ok r' →
      ∃ r, applyRecordContext algorithms operations captures s = .ok r := by
  obtain ⟨m, hm⟩ := exists_deltaMerge algorithms captures
  obtain ⟨m', hm'⟩ := exists_deltaMerge algorithms' captures'
  have hapart' : ∀ o ∈ s.outputs, o.config.Apart (stagedDeltas captures') :=
    fun o ho => (hapart o ho).perm hr.perm_stagedDeltas
  -- each run is the run over a merged list, and the two lists are folded alike
  rcases applyRecordContext_cases algorithms hoperations captures s hm
    with ⟨e, hrun, happly⟩ | ⟨r, hrun, happly, hfolded⟩
  · constructor
    · intro r hok
      rw [hrun] at hok
      cases hok
    · intro r' hok'
      rcases applyRecordContext_cases algorithms' hoperations captures' s hm'
        with ⟨e', hrun', -⟩ | ⟨r₁, -, happly', -⟩
      · rw [hrun'] at hok'
        cases hok'
      · rw [StreamingState.apply_congr hr.symm hapart' happly'] at happly
        cases happly
  · have happly' : s.apply m' operations captures' = .ok (r.state, r.advanced, r.before) :=
      StreamingState.apply_congr hr hapart happly
    rcases applyRecordContext_cases algorithms' hoperations captures' s hm'
      with ⟨e', -, herror⟩ | ⟨r', hrun', hok', hfolded'⟩
    · rw [herror] at happly'
      cases happly'
    rw [hok'] at happly'
    have hsame := Except.ok.inj happly'
    rw [Prod.mk.injEq, Prod.mk.injEq] at hsame
    constructor
    · intro r₁ hok
      rw [hrun] at hok
      cases hok
      exact ⟨hfolded, r', hrun', hfolded', hsame⟩
    · exact fun _ _ => ⟨r, hrun⟩

/-- One staged node, and one output that takes its deltas, before the first round. -/
def stagedGraph : StreamingState where
  nodes := [{
    staged := true
    folds := false
    offsets := []
    generation := 0
    coverage := none
    corrections := [0]
    closure := none
    converged := none }]
  outputs := [{
    config := {
      name := "frame"
      logical := none
      contributors := [0]
      fed := [0]
      cancelled := []
      staged := true
      schedule := .ofCounts 2 2 0 0
      valueOffset := 0 }
    progress := ⟨0, 0, 0, .pending⟩
    closure := .notChecked
    released := []
    publications := 0
    slowest := 0
    fireOrdinal := 0
    consumed := 0
    stager := {
      frontier := 0
      begin := 0
      generation := 0
      bits := [0]
      whole := [0]
      hasWhole := false
      intervals := List.replicate 3 ⟨0, 0, []⟩
      pending := []
      spare := [0, 1, 2]
      capacity := 3 } }]
  values := [0]
  generation := 0
  status := .pending
  closure := .notChecked
  completedOperations := 0
  operationCompleted := false
  retiringGeneration := 0
  finalized := false

def stagedCapture (ds : List StagedDelta) : NodeCapture :=
  { NodeCapture.start 2 1 with staged := ds, published := [1, 1], snapshotted := true }

def frames (ds : List StagedDelta) : Option (List (Nat × List UInt8)) :=
  (applyRecordContext stableAlgorithms 2 [stagedCapture ds] stagedGraph).toOption.map fun r =>
    r.state.outputs.map fun o => (o.stager.frontier, o.stager.bits)

/-- Rounds 2 and 3, and behind a gap that is filled later rounds 0 and 1, however they are arranged. -/
theorem applyRecordContext_arrangement_two :
    ∃ r r', applyRecordContext stableAlgorithms 2
        [stagedCapture [⟨0, ⟨2, 4, [1]⟩⟩, ⟨1, ⟨0, 2, [1]⟩⟩]] stagedGraph = .ok r ∧
      applyRecordContext stableAlgorithms 2
        [stagedCapture [⟨1, ⟨0, 2, [1]⟩⟩, ⟨0, ⟨2, 4, [1]⟩⟩]] stagedGraph = .ok r' ∧ r'.state = r.state := by
  obtain ⟨r, hr⟩ := exists_eq_ok (x := applyRecordContext stableAlgorithms 2
    [stagedCapture [⟨0, ⟨2, 4, [1]⟩⟩, ⟨1, ⟨0, 2, [1]⟩⟩]] stagedGraph) (by decide +kernel)
  have hrearranged : Rearranged [stagedCapture [⟨0, ⟨2, 4, [1]⟩⟩, ⟨1, ⟨0, 2, [1]⟩⟩]]
      [stagedCapture [⟨1, ⟨0, 2, [1]⟩⟩, ⟨0, ⟨2, 4, [1]⟩⟩]] := ⟨.cons (.swap _ _ _) .nil, rfl⟩
  have hapart : ∀ o ∈ stagedGraph.outputs, o.config.Apart (stagedDeltas
      [stagedCapture [⟨0, ⟨2, 4, [1]⟩⟩, ⟨1, ⟨0, 2, [1]⟩⟩]]) := by
    simp [stagedGraph, OutputConfig.Apart, stagedDeltas, stagedCapture, OutputConfig.commitsRounds, isWhole,
      wholeShot, StagedDelta.key]
  obtain ⟨-, r', hr', -, hstate, -⟩ := (applyRecordContext_arrangement stableAlgorithms stableAlgorithms
    two_pos stagedGraph hrearranged hapart).1 r hr
  exact ⟨r, r', hr, hr', hstate⟩

/-- Two deltas of an operation that begin at the same round leave what comes last to one of them; and a
delta that comes behind the frontier is refused. -/
theorem arrangement_matters :
    NodeCapture.Rearranged
      [stagedCapture [⟨0, ⟨2, 4, [1]⟩⟩, ⟨0, ⟨2, 5, [0]⟩⟩, ⟨1, ⟨0, 2, [0]⟩⟩]]
      [stagedCapture [⟨0, ⟨2, 5, [0]⟩⟩, ⟨0, ⟨2, 4, [1]⟩⟩, ⟨1, ⟨0, 2, [0]⟩⟩]] ∧
    frames [⟨0, ⟨2, 4, [1]⟩⟩, ⟨0, ⟨2, 5, [0]⟩⟩, ⟨1, ⟨0, 2, [0]⟩⟩] = some [(5, [0])] ∧
    frames [⟨0, ⟨2, 5, [0]⟩⟩, ⟨0, ⟨2, 4, [1]⟩⟩, ⟨1, ⟨0, 2, [0]⟩⟩] = some [(4, [1])] ∧
    frames [⟨0, ⟨0, 2, [0]⟩⟩, ⟨1, ⟨0, 2, [0]⟩⟩] = none :=
  ⟨⟨.cons (.swap _ _ _) .nil, rfl⟩, by decide +kernel, by decide +kernel, by decide +kernel⟩

end CudaqQec
