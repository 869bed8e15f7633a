import CudaqQec.Graph.JoinCalls

/-!
# Every instance fires once

A whole shot of a node that joins its inputs by index. Its producers' deliveries come in any order, fires
start and end in between, and flushes resolve what is left, one part at a time if the event store is
short. `JoinNode.firesOnce`: whatever the order, an instance is queued to fire once if something of it
came and every required input did, and never otherwise.
-/

namespace CudaqQec

variable {n : Nat} {V : Type}

def JoinStep.delivery? : JoinStep n V → Option (JoinDelivery n V)
  | deliver d => some d
  | _ => none

def JoinStep.isFlush : JoinStep n V → Bool
  | flush .. => true
  | _ => false

def JoinStep.deliveries (steps : List (JoinStep n V)) : List (JoinDelivery n V) :=
  steps.filterMap JoinStep.delivery?

/-- Between shots: no entry is used and no instance is marked dropped. -/
structure Joins.Idle (s : Joins n V) : Prop where
  valid : s.table.Valid
  live : s.table.live = []
  dropped : ∀ k, some k ∉ s.dropped.ring

namespace JoinNode

variable (node : JoinNode)

structure Sound (all done rest : List (JoinDelivery node.inputs V)) (s : JoinShot node.inputs V) :
    Prop where
  ledger : node.Ledger all done rest (fun _ => True) s.joins (s.waiting ++ s.running) s.queued
  started : (s.fired.map Prod.fst ++ s.waiting.map IndexedFire.index).Perm s.queued
  inputs : ∀ f ∈ s.fired, ∀ i v, f.2 i = some v ↔ Published all i (node.source f.1 i) v
  resolved : s.resolved = true → ∀ k c e, s.joins.table.Has k c e → e.pending = 0

variable {node} {all done rest : List (JoinDelivery node.inputs V)} {s : JoinShot node.inputs V}

theorem sound_begin {joins : Joins node.inputs V} (h : joins.Idle) :
    node.Sound all [] all (.begin joins) := by
  have hnone : ∀ k c e, ¬ joins.table.Has k c e := by
    intro k c e hc
    have hmem := hc.1
    rw [h.live] at hmem
    exact absurd hmem List.not_mem_nil
  refine ⟨⟨h.valid, fun k c e _ hc => absurd hc (hnone k c e), fun k c e _ hc =>
    absurd hc (hnone k c e), ?_, List.nodup_nil, List.nodup_nil, ?_, ?_, fun k hk =>
    absurd hk (h.dropped k)⟩, List.Perm.refl _, ?_, ?_⟩
  · intro f hf
    exact absurd hf List.not_mem_nil
  · intro k hk
    exact absurd hk List.not_mem_nil
  · rintro k - ⟨i, d, hd, -⟩
    exact absurd hd List.not_mem_nil
  · intro f hf
    exact absurd hf List.not_mem_nil
  · intro hno
    cases hno

namespace Sound

/-! ## The steps -/

theorem queue {done' rest' : List (JoinDelivery node.inputs V)} (h : node.Sound all done rest s)
    {joins : Joins node.inputs V} {fires : List IndexedFire} {resolved : Bool}
    (hledger : node.Ledger all done' rest' (fun _ => True) joins
      ((s.waiting ++ s.running) ++ fires) (s.queued ++ fires.map IndexedFire.index))
    (hresolved : resolved = true → ∀ k c e, joins.table.Has k c e → e.pending = 0) :
    node.Sound all done' rest' { s.queue joins fires with resolved := resolved } where
  ledger := by
    apply hledger.perm
    change (s.waiting ++ s.running ++ fires).Perm (s.waiting ++ fires ++ s.running)
    rw [List.append_assoc, List.append_assoc]
    exact List.perm_append_comm.append_left _
  started := by
    change (s.fired.map Prod.fst ++ (s.waiting ++ fires).map IndexedFire.index).Perm
      (s.queued ++ fires.map IndexedFire.index)
    rw [List.map_append, ← List.append_assoc]
    exact h.started.append_right _
  inputs := h.inputs
  resolved := hresolved

theorem deliver {d : JoinDelivery node.inputs V} (h : node.Sound all done (d :: rest) s)
    (hall : all = done ++ d :: rest) (hdis : node.Disciplined all) (hopen : s.resolved = false) :
    ∃ s', node.step s (.deliver d) = .ok s' ∧ node.Sound all (done ++ [d]) rest s' ∧
      s'.resolved = false := by
  obtain ⟨r, hr, hafter⟩ := h.ledger.deliverIndexed hall hdis
  refine ⟨s.queue r.1 (r.2.filterMap JoinEvent.fire?), ?_, ?_, hopen⟩
  · simp only [step, hr]
    rfl
  · have hnot : s.resolved = true → ∀ k c e, r.1.table.Has k c e → e.pending = 0 := by
      intro hno
      rw [hopen] at hno
      cases hno
    exact h.queue hafter hnot

/-- A fire that starts is handed what its producers published. -/
theorem start (h : node.Sound all done rest s) (hsub : ∀ d ∈ done, d ∈ all)
    (hdis : node.Disciplined all) (place : Nat) : node.Sound all done rest (s.start place) := by
  unfold JoinShot.start
  cases hf : s.waiting[place]? with
  | none => exact h
  | some f =>
    obtain ⟨hlt, hget⟩ := List.getElem?_eq_some_iff.mp hf
    have hperm : s.waiting.Perm (f :: s.waiting.eraseIdx place) := by
      rw [← hget]
      exact (List.getElem_cons_eraseIdx_perm hlt).symm
    have hmem : f ∈ s.waiting ++ s.running :=
      List.mem_append_left _ (List.mem_of_getElem? hf)
    obtain ⟨-, e, hhas, hp⟩ := h.ledger.live f hmem
    have hrec := h.ledger.records _ _ _ trivial hhas
    refine ⟨?_, ?_, ?_, h.resolved⟩
    · apply h.ledger.perm
      change (s.waiting ++ s.running).Perm (s.waiting.eraseIdx place ++ (s.running ++ [f]))
      rw [← List.append_assoc]
      exact (hperm.append_right _).trans (List.perm_append_singleton f _).symm
    · change ((s.fired ++ [_]).map Prod.fst ++ (s.waiting.eraseIdx place).map IndexedFire.index).Perm
        s.queued
      rw [List.map_append, List.append_assoc]
      exact ((hperm.map IndexedFire.index).symm.append_left _).trans h.started
    · intro g hg i v
      rcases List.mem_append.mp hg with hg | hg
      · exact h.inputs g hg i v
      · rw [List.mem_singleton.mp hg]
        change ((s.joins.table.cells f.entry).content.state i).value? = some v ↔ _
        rw [hhas.2.2]
        -- what the entry holds of input `i` is what its producer published, and nothing else was
        cases hstate : e.state i with
        | missing => exact absurd hstate (hrec.state_ne_missing hp i)
        | present w =>
          have hw := (hrec.present i w hstate).mono hsub
          constructor
          · intro he
            rw [← Option.some.inj he]
            exact hw
          · intro hv
            rw [hdis.published_unique hv hw]
            rfl
        | absent =>
          constructor
          · intro he
            cases he
          · intro hv
            exact absurd hv ((hrec.absent i hstate).2.1 v)

theorem finish (h : node.Sound all done rest s) (place : Nat) :
    node.Sound all done rest (s.finish place) := by
  unfold JoinShot.finish
  cases hf : s.running[place]? with
  | none => exact h
  | some f =>
    obtain ⟨hlt, hget⟩ := List.getElem?_eq_some_iff.mp hf
    have hperm : (s.waiting ++ s.running).Perm (f :: (s.waiting ++ s.running.eraseIdx place)) := by
      have hrun : s.running.Perm (f :: s.running.eraseIdx place) := by
        rw [← hget]
        exact (List.getElem_cons_eraseIdx_perm hlt).symm
      exact (hrun.append_left _).trans List.perm_middle
    have hled := h.ledger.perm hperm
    obtain ⟨hq, e, hhas, hp⟩ := hled.live f (List.mem_cons_self ..)
    have hfree := (hled.drop_fire).free hhas (hled.entry_ne_rest) (.inl hq)
    refine ⟨hfree, h.started, h.inputs, fun hres k c e hc => ?_⟩
    exact h.resolved hres k c e ((h.ledger.valid.has_release hhas.1).mp hc).1

theorem flush (h : node.Sound all all [] s) (slots free : Nat) :
    (∃ s', node.step s (.flush slots free) = .ok s' ∧ node.Sound all all [] s') ∨
    ∃ k i, node.step s (.flush slots free) = .error (node.neverArrived k i) ∧
      node.Exists all k ∧ node.guaranteed i k = true ∧
      ∀ v, ¬ Published all i (node.source k i) v := by
  have hmem : ∀ c, c ∈ s.joins.table.live.insertionSort (· ≤ ·) ↔ c ∈ s.joins.table.live :=
    fun c => List.mem_insertionSort _
  have hscan := h.ledger.resolveScan slots (s.joins.table.live.insertionSort (· ≤ ·)) free
    (fun c hc => ((h.ledger.valid.mem_live c).mp ((hmem c).mp hc)).1)
    fun l c x hc _ => (hmem c).mpr hc.1
  rcases hscan with ⟨r, hr, hflushed, hdone⟩ | ⟨k, i, herr, hlost⟩
  · left
    refine ⟨{ s.queue r.1 r.2.1 with resolved := !r.2.2 }, ?_, ?_⟩
    · simp only [step, resolveJoins, hr]
      rfl
    · apply h.queue hflushed
      intro hmore
      apply hdone
      simpa using hmore
  · right
    refine ⟨k, i, ?_, hlost⟩
    simp only [step, resolveJoins, herr]
    rfl

/-! ## The run -/

/-- While its producers deliver, nothing throws. -/
theorem feed (hdis : node.Disciplined all) {steps : List (JoinStep node.inputs V)}
    (hsteps : ∀ x ∈ steps, x.isFlush = false) (h : node.Sound all done (JoinStep.deliveries steps) s)
    (hall : all = done ++ JoinStep.deliveries steps) (hopen : s.resolved = false) :
    ∃ s', node.run s steps = .ok s' ∧ node.Sound all all [] s' := by
  induction steps generalizing s done with
  | nil =>
    refine ⟨s, rfl, ?_⟩
    rw [show JoinStep.deliveries ([] : List (JoinStep node.inputs V)) = [] from rfl] at h hall
    rw [List.append_nil] at hall
    rw [← hall] at h
    exact h
  | cons x steps ih =>
    have hrest : ∀ x ∈ steps, x.isFlush = false := fun y hy => hsteps y (List.mem_cons_of_mem _ hy)
    have hsub : ∀ d ∈ done, d ∈ all := by
      intro d hd
      rw [hall]
      exact List.mem_append_left _ hd
    cases x with
    | deliver d =>
      obtain ⟨s₁, hstep, hsound, hopen₁⟩ := h.deliver hall hdis hopen
      obtain ⟨s', hrun, hs'⟩ := ih hrest hsound (by rw [hall, List.append_assoc]; rfl) hopen₁
      refine ⟨s', ?_, hs'⟩
      rw [run, List.foldlM_cons, hstep]
      exact hrun
    | start place =>
      have hkeep : (s.start place).resolved = false := by
        unfold JoinShot.start
        split <;> exact hopen
      exact ih hrest (h.start hsub hdis place) hall hkeep
    | finish place =>
      have hkeep : (s.finish place).resolved = false := by
        unfold JoinShot.finish
        split <;> exact hopen
      exact ih hrest (h.finish place) hall hkeep
    | flush slots free =>
      have hno := hsteps _ (List.mem_cons_self ..)
      cases hno

theorem drain (hdis : node.Disciplined all) {steps : List (JoinStep node.inputs V)}
    (hsteps : ∀ x ∈ steps, x.delivery? = none) (h : node.Sound all all [] s) :
    (∃ s', node.run s steps = .ok s' ∧ node.Sound all all [] s') ∨
    ∃ k i, node.run s steps = .error (node.neverArrived k i) ∧ node.Exists all k ∧
      node.guaranteed i k = true ∧ ∀ v, ¬ Published all i (node.source k i) v := by
  induction steps generalizing s with
  | nil => exact .inl ⟨s, rfl, h⟩
  | cons x steps ih =>
    have hrest : ∀ x ∈ steps, x.delivery? = none := fun y hy => hsteps y (List.mem_cons_of_mem _ hy)
    cases x with
    | deliver d =>
      have hno := hsteps _ (List.mem_cons_self ..)
      cases hno
    | start place => exact ih hrest (h.start (fun _ hd => hd) hdis place)
    | finish place => exact ih hrest (h.finish place)
    | flush slots free =>
      rcases h.flush slots free with ⟨s₁, hstep, hs₁⟩ | ⟨k, i, herr, hlost⟩
      · rw [run, List.foldlM_cons, hstep]
        exact ih hrest hs₁
      · right
        refine ⟨k, i, ?_, hlost⟩
        rw [run, List.foldlM_cons, herr]
        rfl

theorem exists_of_queued (h : node.Sound all all [] s) {k : Nat} (hk : k ∈ s.queued) :
    node.Exists all k :=
  ⟨(h.ledger.queued_done k hk).1, (h.ledger.queued_done k hk).2.1⟩

/-- Once nothing is pending, every instance that exists was queued. -/
theorem queued_of_exists (h : node.Sound all all [] s) (hres : s.resolved = true) {k : Nat}
    (hk : node.Exists all k) : k ∈ s.queued := by
  rcases h.ledger.touched k trivial hk.1 with hq | ⟨i, hreq, hno⟩ | ⟨c, e, hc, hopen⟩
  · exact hq
  · obtain ⟨v, hv⟩ := hk.2 i hreq
    exact absurd hv (hno v)
  · have hp := h.resolved hres k c e hc
    exact absurd hopen.2.1 (by omega)

end Sound

/-- In whatever order deliveries, fires and flushes come, no instance is queued twice or without its
required inputs, each queued one starts once and is handed what its producers published, and when a
flush has left nothing, all that exist are queued. Only an input that is guaranteed and did not come
stops the shot. -/
theorem firesOnce (node : JoinNode) (joins : Joins node.inputs V) (hidle : joins.Idle)
    (feed tail : List (JoinStep node.inputs V)) (hfeed : ∀ x ∈ feed, x.isFlush = false)
    (htail : ∀ x ∈ tail, x.delivery? = none)
    (hdis : node.Disciplined (JoinStep.deliveries feed)) :
    (∃ s, node.run (.begin joins) (feed ++ tail) = .ok s ∧
      s.queued.Nodup ∧
      (∀ k ∈ s.queued, node.Exists (JoinStep.deliveries feed) k) ∧
      (s.resolved = true → ∀ k, node.Exists (JoinStep.deliveries feed) k → k ∈ s.queued) ∧
      (s.fired.map Prod.fst ++ s.waiting.map IndexedFire.index).Perm s.queued ∧
      ∀ f ∈ s.fired, ∀ i v,
        f.2 i = some v ↔ Published (JoinStep.deliveries feed) i (node.source f.1 i) v) ∨
    ∃ k i, node.run (.begin joins) (feed ++ tail) = .error (node.neverArrived k i) ∧
      node.Exists (JoinStep.deliveries feed) k ∧ node.guaranteed i k = true ∧
      ∀ v, ¬ Published (JoinStep.deliveries feed) i (node.source k i) v := by
  obtain ⟨s, hrun, hs⟩ := (sound_begin hidle).feed hdis hfeed rfl rfl
  have happend : node.run (.begin joins) (feed ++ tail) = node.run s tail := by
    rw [run, List.foldlM_append]
    change (node.run (.begin joins) feed >>= _) = _
    rw [hrun]
    rfl
  rw [happend]
  rcases hs.drain hdis htail with ⟨s', hrun', hs'⟩ | hlost
  · exact .inl ⟨s', hrun', hs'.ledger.queued_once, fun k hk => hs'.exists_of_queued hk,
      fun hres k hk => hs'.queued_of_exists hres hk, hs'.started, hs'.inputs⟩
  · exact .inr hlost

end JoinNode

/-! ## A node that reads its neighbour -/

namespace JoinExample

/-- Input 0 is required; input 1 comes from the instance before, and is guaranteed where `sure` says. -/
def seam (sure : Bool) : JoinNode where
  nodeIndex := 3
  inputs := 2
  offset := fun i => if i = 0 then 0 else -1
  required := fun i => decide (i = 0)
  guaranteed := fun i k => sure && decide (i = 1 ∧ 0 < k)

def joins (sure : Bool) : Joins (seam sure).inputs Nat where
  table := .empty 2 ((seam sure).freshEntry 0)
  dropped := ⟨[none, none, none, none]⟩
  grew := .none

theorem joins_idle (sure : Bool) : (joins sure).Idle where
  valid := HomeTable.valid_empty 2 (by decide) _
  live := rfl
  dropped := by simp [joins]

def feed (sure : Bool) : List (JoinStep (seam sure).inputs Nat) :=
  [.deliver ⟨(0 : Fin 2), 2, some 12, 1, 0⟩, .deliver ⟨(1 : Fin 2), 1, none, 2, 0⟩, .start 0,
    .deliver ⟨(0 : Fin 2), 0, some 10, 1, 0⟩, .deliver ⟨(1 : Fin 2), 1, none, 2, 0⟩, .finish 0,
    .deliver ⟨(0 : Fin 2), 1, some 11, 1, 0⟩]

theorem feed_disciplined (sure : Bool) :
    (seam sure).Disciplined (JoinStep.deliveries (feed sure)) := by
  cases sure with
  | false => exact ⟨by decide, by decide⟩
  | true => exact ⟨by decide, by decide⟩

/-- A node with nothing guaranteed fires all three instances, the last one at the flush. -/
theorem firesOnce_seam : ∃ s,
    (seam false).run (.begin (joins false)) (feed false ++ [.flush 8 8]) = .ok s ∧
      s.queued = [2, 0, 1] ∧ s.queued.Nodup ∧
      ∀ k ∈ s.queued, (seam false).Exists (JoinStep.deliveries (feed false)) k := by
  have hqueued : ((seam false).run (.begin (joins false)) (feed false ++ [.flush 8 8])).map
      JoinShot.queued = .ok [2, 0, 1] := rfl
  rcases (seam false).firesOnce (joins false) (joins_idle false) (feed false) [.flush 8 8]
    (by decide) (by decide) (feed_disciplined false) with ⟨s, hrun, hnodup, hexists, -⟩ |
    ⟨k, i, -, -, hno, -⟩
  · rw [hrun] at hqueued
    exact ⟨s, hrun, Except.ok.inj hqueued, hnodup, hexists⟩
  · cases hno

/-- Where the neighbour's value is guaranteed and does not come, an instance with its required input
does not fire: the flush throws. -/
theorem not_queued_of_lost :
    (seam true).Disciplined (JoinStep.deliveries (feed true)) ∧
    (∀ i, (seam true).required i = true →
      ∃ v, Published (JoinStep.deliveries (feed true)) i ((seam true).source 1 i) v) ∧
    (seam true).run (.begin (joins true)) (feed true ++ [.flush 8 8]) =
      .error ((seam true).neverArrived 1 (1 : Fin 2)) := by
  refine ⟨feed_disciplined true, fun i hi => ?_, rfl⟩
  change Fin 2 at i
  have hfirst : decide (i = 0) = true := hi
  have hslot : i = 0 := of_decide_eq_true hfirst
  subst hslot
  exact ⟨11, ⟨(0 : Fin 2), 1, some 11, 1, 0⟩, by simp [feed, JoinStep.deliveries,
    JoinStep.delivery?], rfl, rfl, rfl⟩

end JoinExample

end CudaqQec
