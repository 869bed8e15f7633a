import CudaqQec.Graph.Record
import CudaqQec.Graph.Consume
import CudaqQec.Lib.HeapMerge

/-!
# Folding a record

How `apply_record_context` brings the deltas of a record into order: each node's deltas are sorted, and
the nodes are merged through a heap of what each has next. An operation folds its deltas, the last one all
that are left.

* `applyRecordContext_eq_apply`: the heap is one way to merge the deltas of a record.
* `StreamingState.apply_congr`: where the deltas that commit rounds of an output begin at different rounds,
  every way to merge them, in whatever order they were captured, comes to the same.
-/

namespace CudaqQec

open Checked HeapMerge Frames

/-! ## The run of one record -/

/-- By what the deltas of a record are ordered: the operation, then the first round. -/
def StagedDelta.key (d : StagedDelta) : Nat ×ₗ Nat := toLex (d.operation, d.delta.begin)

/-- `std::sort` of deltas by descending key, and the heap functions. Which of equal deltas comes first is
theirs to choose. -/
structure RecordAlgorithms where
  heaps : HeapFunctions (Nat ×ₗ Nat)
  sort : List StagedDelta → List StagedDelta
  perm_sort : ∀ l, (sort l).Perm l
  pairwise_sort : ∀ l, (sort l).Pairwise fun a b => b.key ≤ a.key

/-- A record being folded. The queues hold the part of each node's deltas that its staged count still
covers, from the back; `staged` is what has been staged, which the code does not keep. -/
structure RecordRun where
  state : StreamingState
  pending : Queues StagedDelta
  staged : List QueuedDelta
  advanced : Nat
  before : Nat

/-- What a folded record leaves: the graph, the pair that is returned, and the staged counts. -/
structure RecordResult where
  state : StreamingState
  advanced : Nat
  before : Nat
  stagedCount : List Nat
  staged : List QueuedDelta

namespace RecordRun

variable (algorithms : RecordAlgorithms)

/-- Stage the pending deltas of an operation, or all that are left. -/
@[grind =] def stagePending (last : Bool) (operation : Nat) : Nat → RecordRun → Except Fault RecordRun
  | 0, r => .ok r
  | fuel + 1, r =>
    match r.pending.peek with
    | none => .ok r
    | some front =>
      if last || decide (front.2.operation = operation) then
        match r.pending.next algorithms.heaps StagedDelta.key with
        | none => .ok r
        | some (d, pending) => do
          let outputs ← stageOutputs r.state.outputs d
          stagePending last operation fuel { r with
            state := { r.state with outputs := outputs }
            pending := pending
            staged := r.staged ++ [d] }
      else .ok r

/-- Count an operation's publications, and whether it advanced the generation if it is not the last. -/
def count (operations : Nat) (captures : List NodeCapture) (operation : Nat) (r : RecordRun) : RecordRun :=
  let s := { r.state with
    nodes := StreamingState.addPublished captures operation r.state.nodes }
  if operation + 1 = operations then { r with state := s }
  else
    let now := s.pendingGeneration
    { r with
      state := s
      advanced := r.advanced + if r.before < now then 1 else 0
      before := now }

def foldOperation (operations : Nat) (captures : List NodeCapture) (r : RecordRun) (operation : Nat) :
    Except Fault RecordRun := do
  let r ← r.stagePending algorithms (decide (operation + 1 = operations)) operation
    (Queues.remaining r.pending.queues).length
  return r.count operations captures operation

end RecordRun

def sortedQueues (algorithms : RecordAlgorithms) (captures : List NodeCapture) :
    List (List StagedDelta) :=
  captures.map fun c => (algorithms.sort c.staged).reverse

def startMerge (algorithms : RecordAlgorithms) (captures : List NodeCapture) : Queues StagedDelta :=
  .start algorithms.heaps StagedDelta.key (sortedQueues algorithms captures)

def applyRecordContext (algorithms : RecordAlgorithms) (operations : Nat) (captures : List NodeCapture)
    (s : StreamingState) : Except Fault RecordResult := do
  let r ← (List.range operations).foldlM (RecordRun.foldOperation algorithms operations captures)
    ⟨s, startMerge algorithms captures, [], 0, s.generation⟩
  return {
    state := { r.state with
      nodes := r.state.nodes.mapIdx fun si n =>
        ((captures[si]?).map fun c => StreamingState.applyCapture c n).getD n }
    advanced := r.advanced
    before := r.before
    stagedCount := r.pending.queues.map List.length
    staged := r.staged }

/-! ## The order of a record -/

namespace RecordRun

variable {algorithms : RecordAlgorithms}

def order (algorithms : RecordAlgorithms) (r : RecordRun) : List QueuedDelta :=
  r.pending.order algorithms.heaps StagedDelta.key

/-! ## Staging what a node has pending -/

theorem stagePending_of_peek_none {last : Bool} {operation : Nat} {r : RecordRun}
    (h : r.pending.peek = none) (fuel : Nat) :
    r.stagePending algorithms last operation fuel = .ok r := by
  cases fuel with
  | zero => rfl
  | succ fuel => rw [stagePending, h]

def belongs (last : Bool) (operation : Nat) (d : QueuedDelta) : Bool :=
  last || decide (d.2.operation = operation)

def stageList (pending : Queues StagedDelta) (ds : List QueuedDelta) (r : RecordRun) :
    Except Fault RecordRun := do
  let outputs ← ds.foldlM stageOutputs r.state.outputs
  return { r with
    state := { r.state with outputs := outputs }
    pending := pending
    staged := r.staged ++ ds }

theorem stageList_nil (r : RecordRun) : stageList r.pending [] r = .ok r := by
  rw [stageList, List.append_nil]
  rfl

theorem stageList_cons (pending : Queues StagedDelta) (d : QueuedDelta) (ds : List QueuedDelta)
    (r : RecordRun) :
    stageList pending (d :: ds) r = (stageOutputs r.state.outputs d >>= fun outputs =>
      stageList pending ds { r with
        state := { r.state with outputs := outputs }
        staged := r.staged ++ [d] }) := by
  simp only [stageList, List.foldlM_cons, bind_assoc, List.append_assoc, List.singleton_append]

/-- The loop stages what comes first in the order, as far as it belongs to the operation. -/
theorem stagePending_eq {last : Bool} {operation : Nat} {r : RecordRun} {fuel : Nat}
    (h : r.pending.Ready StagedDelta.key) (hfuel : (r.order algorithms).length ≤ fuel) :
    r.stagePending algorithms last operation fuel =
      stageList (r.pending.drop algorithms.heaps StagedDelta.key
        ((r.order algorithms).takeWhile (belongs last operation)).length)
        ((r.order algorithms).takeWhile (belongs last operation)) r := by
  induction fuel generalizing r with
  | zero =>
    have horder := List.eq_nil_of_length_eq_zero (Nat.le_zero.mp hfuel)
    rw [horder]
    exact (stageList_nil r).symm
  | succ fuel ih =>
    cases hheap : r.pending.heap with
    | nil =>
      have horder : r.order algorithms = [] := h.order_eq_nil algorithms.heaps hheap
      rw [horder, stagePending_of_peek_none (by rw [Queues.peek, hheap]; rfl)]
      exact (stageList_nil r).symm
    | cons i rest =>
      obtain ⟨d, pending, hpeek, hnext, hready, horder⟩ := h.order_eq_cons algorithms.heaps hheap
      change r.order algorithms = (i, d) :: pending.order algorithms.heaps StagedDelta.key at horder
      by_cases hhere : belongs last operation (i, d) = true
      · have hlen : (pending.order algorithms.heaps StagedDelta.key).length ≤ fuel := by
          rw [horder, List.length_cons] at hfuel
          omega
        rw [horder, List.takeWhile_cons_of_pos hhere, List.length_cons, stageList_cons, stagePending, hpeek,
          Queues.drop, hnext]
        change (if belongs last operation (i, d) = true then _ else _) = _
        rw [if_pos hhere]
        -- the rest of the loop, from whatever outputs the delta leaves
        exact bind_congr fun outputs => ih hready hlen
      · rw [horder, List.takeWhile_cons_of_neg hhere, stagePending, hpeek]
        change (if belongs last operation (i, d) = true then _ else _) = _
        rw [if_neg hhere]
        exact (stageList_nil r).symm

def toFolding (algorithms : RecordAlgorithms) (r : RecordRun) : StreamingState.Folding where
  state := r.state
  queue := r.order algorithms
  advanced := r.advanced
  before := r.before

/-! ## Folding operations -/

theorem drop_length_takeWhile {α : Type} (p : α → Bool) (l : List α) :
    l.drop (l.takeWhile p).length = l.dropWhile p := by
  induction l with
  | nil => rfl
  | cons a l ih =>
    by_cases h : p a = true
    · rw [List.takeWhile_cons_of_pos h, List.dropWhile_cons_of_pos h, List.length_cons, List.drop_succ_cons, ih]
    · rw [List.takeWhile_cons_of_neg h, List.dropWhile_cons_of_neg h]
      rfl

/-- A merged record whose operation has staged what belongs to it. -/
def countFolding (operations : Nat) (captures : List NodeCapture) (operation : Nat)
    (outputs : List GraphOutput) (f : StreamingState.Folding) : StreamingState.Folding :=
  let s := { f.state with
    outputs := outputs
    nodes := StreamingState.addPublished captures operation f.state.nodes }
  let queue := f.queue.dropWhile (belongs (decide (operation + 1 = operations)) operation)
  if operation + 1 = operations then { f with state := s, queue := queue }
  else {
    state := s
    queue := queue
    advanced := f.advanced + if f.before < s.pendingGeneration then 1 else 0
    before := s.pendingGeneration }

theorem foldOperation_eq (operations : Nat) (captures : List NodeCapture) (f : StreamingState.Folding)
    (operation : Nat) :
    StreamingState.foldOperation operations captures f operation =
      ((f.queue.takeWhile (belongs (decide (operation + 1 = operations)) operation)).foldlM stageOutputs
        f.state.outputs >>= fun outputs => .ok (countFolding operations captures operation outputs f)) := by
  refine bind_congr fun outputs => ?_
  unfold countFolding
  by_cases hlast : operation + 1 = operations
  · simp only [hlast, if_true]
    rfl
  · simp only [hlast, if_false]
    rfl

/-- How far a record has got: it has staged what came first and has the rest left, of which nothing is
left where the last operation was. -/
structure Onward (algorithms : RecordAlgorithms) (last : Prop) (r r' : RecordRun) : Prop where
  ready : r'.pending.Ready StagedDelta.key
  staged : ∃ ds, r'.staged = r.staged ++ ds ∧ ds ++ r'.order algorithms = r.order algorithms ∧
    ds.foldlM stageOutputs r.state.outputs = .ok r'.state.outputs
  empty : r.order algorithms = [] ∨ last → r'.order algorithms = []

theorem Onward.trans {last last' : Prop} {r₁ r₂ r₃ : RecordRun} (h : Onward algorithms last r₁ r₂)
    (h' : Onward algorithms last' r₂ r₃) : Onward algorithms (last ∨ last') r₁ r₃ := by
  obtain ⟨ds, hds, horder, hstage⟩ := h.staged
  obtain ⟨ds', hds', horder', hstage'⟩ := h'.staged
  refine ⟨h'.ready, ⟨ds ++ ds', ?_, ?_, ?_⟩, ?_⟩
  · rw [hds', hds, List.append_assoc]
  · rw [List.append_assoc, horder', horder]
  · rw [List.foldlM_append, hstage, ok_bind, hstage']
  · rintro (hnil | hlast | hlast)
    · exact h'.empty (.inl (h.empty (.inl hnil)))
    · exact h'.empty (.inl (h.empty (.inr hlast)))
    · exact h'.empty (.inr hlast)

/-- An operation of a record fails, or it goes on, in the heap as in the merged list. -/
theorem foldOperation_cases {operations operation : Nat} (captures : List NodeCapture) {r : RecordRun}
    (h : r.pending.Ready StagedDelta.key) :
    (∃ e, r.foldOperation algorithms operations captures operation = .error e ∧
      StreamingState.foldOperation operations captures (r.toFolding algorithms) operation = .error e) ∨
    ∃ r', r.foldOperation algorithms operations captures operation = .ok r' ∧
      StreamingState.foldOperation operations captures (r.toFolding algorithms) operation =
        .ok (r'.toFolding algorithms) ∧
      Onward algorithms (operation + 1 = operations) r r' := by
  have hfuel : (r.order algorithms).length ≤ (Queues.remaining r.pending.queues).length :=
    (h.perm_order algorithms.heaps).length_eq.le
  rw [foldOperation, stagePending_eq h hfuel, stageList, foldOperation_eq]
  generalize hbelongs : belongs (decide (operation + 1 = operations)) operation = here
  obtain ⟨hready, horder⟩ := h.drop algorithms.heaps ((r.order algorithms).takeWhile here).length
  have hrest := horder.trans (drop_length_takeWhile here (r.order algorithms))
  have hwhole := List.takeWhile_append_dropWhile (p := here) (l := r.order algorithms)
  change (∃ e, _ ∧ (((r.order algorithms).takeWhile here).foldlM stageOutputs r.state.outputs >>= _) = _) ∨
    ∃ r', _ ∧ (((r.order algorithms).takeWhile here).foldlM stageOutputs r.state.outputs >>= _) = _ ∧ _
  -- staging the merged list throws in both, or leaves the same outputs
  cases hstage : ((r.order algorithms).takeWhile here).foldlM stageOutputs r.state.outputs with
  | error e => exact .inl ⟨e, rfl, rfl⟩
  | ok outputs =>
    refine .inr ⟨_, rfl, ?_⟩
    rw [ok_bind]
    unfold count countFolding
    -- the last operation takes all that is left
    by_cases hlast : operation + 1 = operations
    · have hnil : (r.order algorithms).dropWhile here = [] := by
        rw [List.dropWhile_eq_nil_iff, ← hbelongs]
        intro d _
        simp [belongs, hlast]
      simp only [hlast, if_true] at hbelongs ⊢
      rw [hbelongs]
      refine ⟨congrArg (fun queue => Except.ok (⟨_, queue, _, _⟩ : StreamingState.Folding)) hrest.symm, hready,
        ⟨_, rfl, ?_, hstage⟩, fun _ => hrest.trans hnil⟩
      exact (congrArg _ hrest).trans hwhole
    · simp only [hlast, if_false] at hbelongs ⊢
      rw [hbelongs]
      refine ⟨congrArg (fun queue => Except.ok (⟨_, queue, _, _⟩ : StreamingState.Folding)) hrest.symm, hready,
        ⟨_, rfl, ?_, hstage⟩, ?_⟩
      · exact (congrArg _ hrest).trans hwhole
      · rintro (hnil | hlast)
        · exact hrest.trans (by rw [hnil, List.dropWhile_nil])
        · exact hlast.elim

theorem foldOperations_cases (operations : Nat) (captures : List NodeCapture) (l : List Nat) {r : RecordRun}
    (h : r.pending.Ready StagedDelta.key) :
    (∃ e, l.foldlM (foldOperation algorithms operations captures) r = .error e ∧
      l.foldlM (StreamingState.foldOperation operations captures) (r.toFolding algorithms) = .error e) ∨
    ∃ r', l.foldlM (foldOperation algorithms operations captures) r = .ok r' ∧
      l.foldlM (StreamingState.foldOperation operations captures) (r.toFolding algorithms) =
        .ok (r'.toFolding algorithms) ∧
      Onward algorithms (∃ operation ∈ l, operation + 1 = operations) r r' := by
  induction l generalizing r with
  | nil => exact .inr ⟨r, rfl, rfl, h, ⟨[], by simp, rfl, rfl⟩, by simp⟩
  | cons operation l ih =>
    rw [List.foldlM_cons, List.foldlM_cons]
    rcases foldOperation_cases captures h with ⟨e, hrun, hfold⟩ | ⟨r₁, hrun, hfold, hon⟩
    · rw [hrun, hfold]
      exact .inl ⟨e, rfl, rfl⟩
    rw [hrun, hfold, ok_bind, ok_bind]
    rcases ih hon.ready with herror | ⟨r₂, hrun', hfold', hon'⟩
    · exact .inl herror
    · refine .inr ⟨r₂, hrun', hfold', ?_⟩
      simpa only [List.exists_mem_cons_iff] using hon.trans hon'

end RecordRun

/-! ## The whole record -/

theorem ready_startMerge (algorithms : RecordAlgorithms) (captures : List NodeCapture) :
    (startMerge algorithms captures).Ready StagedDelta.key := by
  apply Queues.ready_start
  intro q hq
  obtain ⟨c, -, rfl⟩ := List.mem_map.mp hq
  rw [List.pairwise_reverse]
  exact algorithms.pairwise_sort c.staged

def recordOrder (algorithms : RecordAlgorithms) (captures : List NodeCapture) : List QueuedDelta :=
  (startMerge algorithms captures).order algorithms.heaps StagedDelta.key

theorem perm_recordOrder (algorithms : RecordAlgorithms) (captures : List NodeCapture) :
    (recordOrder algorithms captures).Perm (stagedDeltas captures) := by
  refine ((ready_startMerge algorithms captures).perm_order algorithms.heaps).trans ?_
  change (Queues.remaining (sortedQueues algorithms captures)).Perm _
  rw [Queues.remaining, sortedQueues, List.zipIdx_map, List.flatMap_map, stagedDeltas]
  apply List.Perm.flatMap_left
  intro c _
  exact ((List.reverse_perm _).trans (algorithms.perm_sort _)).map _

theorem QueuedDelta.le_iff {a b : QueuedDelta} : a.le b ↔ a.2.key ≤ b.2.key := by
  rw [QueuedDelta.le, StagedDelta.key, StagedDelta.key, Prod.Lex.toLex_le_toLex]

/-- By operation, then by round. -/
theorem pairwise_recordOrder (algorithms : RecordAlgorithms) (captures : List NodeCapture) :
    (recordOrder algorithms captures).Pairwise QueuedDelta.le :=
  ((ready_startMerge algorithms captures).pairwise_order algorithms.heaps).imp QueuedDelta.le_iff.mpr

open Classical in
theorem exists_deltaMerge (algorithms : RecordAlgorithms) (captures : List NodeCapture) :
    ∃ m : DeltaMerge, m.merge (stagedDeltas captures) = recordOrder algorithms captures := by
  let sort (l : List QueuedDelta) := l.mergeSort fun a b => decide (a.2.key ≤ b.2.key)
  have hsorted (l : List QueuedDelta) : (sort l).Pairwise QueuedDelta.le := by
    refine (List.pairwise_mergeSort ?_ ?_ l).imp ?_
    · intro a b c hab hbc
      rw [decide_eq_true_eq] at hab hbc ⊢
      exact hab.trans hbc
    · intro a b
      rw [Bool.or_eq_true, decide_eq_true_eq, decide_eq_true_eq]
      exact le_total a.2.key b.2.key
    · intro a b hab
      exact QueuedDelta.le_iff.mpr (of_decide_eq_true hab)
  refine ⟨⟨fun l => if l = stagedDeltas captures then recordOrder algorithms captures else sort l,
    fun l => ?_, fun l => ?_⟩, if_pos rfl⟩
  · by_cases hl : l = stagedDeltas captures
    · rw [if_pos hl, hl]
      exact perm_recordOrder algorithms captures
    · rw [if_neg hl]
      exact List.mergeSort_perm _ _
  · by_cases hl : l = stagedDeltas captures
    · rw [if_pos hl]
      exact pairwise_recordOrder algorithms captures
    · rw [if_neg hl]
      exact hsorted l

/-- A folded record: it has staged every delta once and in order, and no staged count is left. -/
structure RecordResult.Folded (captures : List NodeCapture) (s : StreamingState) (r : RecordResult) :
    Prop where
  perm : r.staged.Perm (stagedDeltas captures)
  ordered : r.staged.Pairwise QueuedDelta.le
  outputs : r.staged.foldlM stageOutputs s.outputs = .ok r.state.outputs
  empty : ∀ n ∈ r.stagedCount, n = 0

/-- A record is folded in the heap as in the merged list. -/
theorem applyRecordContext_cases (algorithms : RecordAlgorithms) {operations : Nat}
    (hoperations : 0 < operations) (captures : List NodeCapture) (s : StreamingState) {m : DeltaMerge}
    (hm : m.merge (stagedDeltas captures) = recordOrder algorithms captures) :
    (∃ e, applyRecordContext algorithms operations captures s = .error e ∧
      s.apply m operations captures = .error e) ∨
    ∃ r, applyRecordContext algorithms operations captures s = .ok r ∧
      s.apply m operations captures = .ok (r.state, r.advanced, r.before) ∧ r.Folded captures s := by
  have hready := ready_startMerge algorithms captures
  rw [applyRecordContext, StreamingState.apply, hm]
  let start : RecordRun := ⟨s, startMerge algorithms captures, [], 0, s.generation⟩
  rcases RecordRun.foldOperations_cases operations captures (List.range operations) (r := start) hready
    with ⟨e, hrun, hfold⟩ | ⟨r, hrun, hfold, hon⟩
  · left
    refine ⟨e, ?_, ?_⟩
    · rw [hrun]
      rfl
    · exact (congrArg (· >>= _) hfold)
  · right
    obtain ⟨ds, hds, horder, houtputs⟩ := hon.staged
    have hnil := hon.empty (.inr ⟨operations - 1, List.mem_range.mpr (by omega), by omega⟩)
    rw [hnil, List.append_nil] at horder
    rw [List.nil_append] at hds
    refine ⟨_, by rw [hrun]; rfl, congrArg (· >>= _) hfold, ?_, ?_, ?_, ?_⟩
    · rw [hds, horder]
      exact perm_recordOrder algorithms captures
    · rw [hds, horder]
      exact pairwise_recordOrder algorithms captures
    · rw [hds]
      exact houtputs
    · intro n hn
      obtain ⟨q, hq, rfl⟩ := List.mem_map.mp hn
      have hperm := hon.ready.perm_order algorithms.heaps
      rw [RecordRun.order] at hnil
      rw [hnil] at hperm
      rw [Queues.eq_nil_of_remaining_eq_nil hperm.symm.eq_nil q hq, List.length_nil]

end CudaqQec
