import CudaqQec.Playback.Advancing
import Mathlib.Data.List.Perm.Basic

/-!
# Playback runs settle every event once

`Played`: what a run has done. An event is settled when it was reported done and all its replies have
come, whichever is the later, and never before; its signal is raised then. The logs hold the requests of
each event and the bits that went with them, apart from those of the others.

The log of the bits is indexed with 32 bits, as is the arena of the frames, and the plan counts neither:
`run_played` is about the runs in which both fit.
-/

namespace CudaqQec.Playback

open Checked Arena
open Realtime (RpcStatus)

/-! ## What a run has done -/

/-- An event was reported done: it was dispatched, and its `event_done` is no longer on the way. -/
def Reported (st : RunState) (i : Nat) : Prop :=
  i < st.timing.stage.index ∧ (st.timing.records i).dispatched = true ∧
    ∀ done ∈ st.dones, done.event ≠ i

def Ended (st : RunState) (i : Nat) : Prop := Reported st i ∧ ∀ tag ∈ st.replies, tag.event ≠ i

/-- Whether the timing thread can go no further. -/
def Stage.over : Stage → Bool
  | .finished _ | .failed _ _ => true
  | .next _ | .waiting _ | .sent _ | .streaming _ _ | .deciding _ _ => false

/-- Nothing is left to do. -/
def Complete (st : RunState) : Prop :=
  st.timing.stage.over = true ∧ st.replies = [] ∧ st.dones = []

/-- What a run has done so far. -/
structure Played (p : RunPlan) (st : RunState) : Prop where
  once : st.workers.settled.Nodup
  settled : ∀ i, i ∈ st.workers.settled ↔ Ended st i
  unsettled : ∀ i, i ∉ st.workers.settled → (st.workers.records i).status = kNoStatus
  signals : ∀ s, st.workers.signals s = true ↔
    s ≠ kNoSignal ∧ ∃ i ∈ st.workers.settled, (p.ev i).signalId = s
  complete : Complete st → ∀ i, (st.timing.records i).dispatched = true → i ∈ st.workers.settled
  counted : st.timing.nRequests ≤ p.maxRequests ∧ st.timing.wire.length = st.timing.nRequests
  logged : ∀ i, Logged p st.timing i
  apart : ∀ i j, i < j →
    Apart (st.timing.records i).requests (st.timing.records j).requests ∧
    Apart (st.timing.records i).syndromes (st.timing.records j).syndromes

/-! ## Settling -/

section Workers

variable {p : RunPlan} {w w' : Workers} {i now : Nat}

/-- What the sessions have made of the events that are settled. -/
structure WorkersInv (p : RunPlan) (w : Workers) : Prop where
  nodup : w.settled.Nodup
  completed : ∀ i, i ∈ w.settled ↔ (w.collectors i).completed = true
  status : ∀ i, i ∉ w.settled → (w.records i).status = kNoStatus
  signals : ∀ s, w.signals s = true ↔ s ≠ kNoSignal ∧ ∃ i ∈ w.settled, (p.ev i).signalId = s

/-- Nothing that counts for what is settled changes. -/
theorem WorkersInv.of_eq (h : WorkersInv p w) (hsettled : w'.settled = w.settled)
    (hsignals : w'.signals = w.signals)
    (hcompleted : ∀ i, (w'.collectors i).completed = (w.collectors i).completed)
    (hstatus : ∀ i, (w'.records i).status = (w.records i).status) : WorkersInv p w' := by
  constructor
  · rw [hsettled]
    exact h.nodup
  · intro i
    rw [hsettled, hcompleted]
    exact h.completed i
  · intro i
    rw [hsettled, hstatus]
    exact h.status i
  · rw [hsettled, hsignals]
    exact h.signals

/-- `settle` completes a collector that is open, and leaves the others as they are. -/
theorem settle_collectors (hopen : (w.collectors i).completed = false) :
    (settle p i now w).collectors =
      Function.update w.collectors i { w.collectors i with completed := true } := by
  unfold settle
  simp only [hopen, Bool.false_eq_true, if_false]

/-- An event that is not settled is settled. -/
theorem WorkersInv.settle (h : WorkersInv p w) (hopen : (w.collectors i).completed = false) :
    WorkersInv p (settle p i now w) := by
  have hnew : i ∉ w.settled := fun hmem => by simp [(h.completed i).mp hmem] at hopen
  unfold Playback.settle
  simp only [hopen, Bool.false_eq_true, if_false]
  constructor
  · refine List.nodup_append.mpr ⟨h.nodup, by simp, ?_⟩
    rintro j hj k hk rfl
    exact hnew (List.mem_singleton.mp hk ▸ hj)
  · intro j
    rw [List.mem_append, List.mem_singleton]
    by_cases hj : j = i
    · subst hj
      simp
    · simp [hj, h.completed j]
  · intro j hj
    rw [List.mem_append, List.mem_singleton, not_or] at hj
    change (Function.update w.records i _ j).status = kNoStatus
    rw [Function.update_of_ne hj.2]
    exact h.status j hj.1
  · intro s
    have hraised : (if (p.ev i).signalId = kNoSignal then w.signals
        else Function.update w.signals (p.ev i).signalId true) s = true ↔
        w.signals s = true ∨ s ≠ kNoSignal ∧ (p.ev i).signalId = s := by
      by_cases hs : (p.ev i).signalId = kNoSignal
      · grind
      · grind [Function.update_self, Function.update_of_ne]
    rw [hraised, h.signals s]
    simp only [List.mem_append, List.mem_singleton]
    grind

/-- What a report makes of the collectors: that of its event counts on, and is completed when the event
has ended. -/
structure Collects (cols cols' : Nat → CollectorEntry) (i collected expected : Nat) (ends : Prop) :
    Prop where
  others : ∀ j, j ≠ i → cols' j = cols j
  collected : (cols' i).collected = collected
  expected : (cols' i).expected = expected
  completed : (cols' i).completed = true ↔ ends

/-- A collector that is written, and settled if its count is up. -/
theorem WorkersInv.count (h : WorkersInv p w) (col : CollectorEntry) (up : Prop) [Decidable up]
    (hopen : (w.collectors i).completed = false) (hcol : col.completed = false)
    (hw' : w' = { w with collectors := Function.update w.collectors i col }) :
    WorkersInv p (if up then Playback.settle p i now w' else w') ∧
      Collects w.collectors (if up then Playback.settle p i now w' else w').collectors i col.collected
        col.expected up := by
  have hcollectors : ∀ j, j ≠ i → w'.collectors j = w.collectors j := fun j hj => by
    rw [hw']
    exact Function.update_of_ne hj _ _
  have hself : w'.collectors i = col := by
    rw [hw']
    exact Function.update_self ..
  have hinv : WorkersInv p w' := by
    refine h.of_eq (by rw [hw']) (by rw [hw']) (fun j => ?_) (fun j => by rw [hw'])
    by_cases hj : j = i
    · subst hj
      rw [hself, hcol, hopen]
    · rw [hcollectors j hj]
  have hopen' : (w'.collectors i).completed = false := hself ▸ hcol
  split
  · next hup =>
    refine ⟨hinv.settle hopen', ?_⟩
    have hsettled := @settle_collectors p w' i now hopen'
    constructor
    · intro j hj
      rw [hsettled, Function.update_of_ne hj]
      exact hcollectors j hj
    all_goals rw [hsettled, Function.update_self]
    · rw [hself]
    · rw [hself]
    · simp [hup]
  · next hup => exact ⟨hinv, hcollectors, by rw [hself], by rw [hself], by simp [hself, hcol, hup]⟩

/-! ## Replies and reports -/

/-- A result that came back settles nothing. -/
theorem noteCorrection_same (status : RpcStatus) (reply : List UInt8) :
    (noteCorrection p i status reply w).collectors = w.collectors ∧
      (noteCorrection p i status reply w).signals = w.signals ∧
      (noteCorrection p i status reply w).settled = w.settled ∧
      ∀ j, ((noteCorrection p i status reply w).records j).status = (w.records j).status := by
  by_cases hread : (p.ev i).op.readsResult = true ∧ status = .ok
  · simp only [noteCorrection, hread, and_self, if_true]
    refine ⟨trivial, trivial, trivial, fun j => ?_⟩
    by_cases hj : j = i
    · subst hj
      rw [Function.update_self]
    · rw [Function.update_of_ne hj]
  · simp only [noteCorrection, hread, if_false]
    exact ⟨trivial, trivial, trivial, fun _ => trivial⟩

theorem collect_spec (h : WorkersInv p w) (hopen : (w.collectors i).completed = false)
    (status : RpcStatus) (returnNs : Nat) :
    WorkersInv p (collect p i status returnNs now w) ∧
      Collects w.collectors (collect p i status returnNs now w).collectors i
        ((w.collectors i).collected + 1) (w.collectors i).expected
        ((w.collectors i).expected ≠ 0 ∧ (w.collectors i).collected + 1 = (w.collectors i).expected) :=
  h.count { w.collectors i with
    lastReturnNs := max (w.collectors i).lastReturnNs returnNs
    lastStatus := status
    anyError := (w.collectors i).anyError || hardError status
    collected := (w.collectors i).collected + 1 }
    ((w.collectors i).expected ≠ 0 ∧ (w.collectors i).collected + 1 = (w.collectors i).expected)
    hopen hopen rfl

/-- `handle_reply`, for an event that is not settled. -/
theorem handleReply_spec (h : WorkersInv p w) (tag : Tag)
    (hopen : (w.collectors tag.event).completed = false) (status : RpcStatus) (reply : List UInt8)
    (returnNs : Nat) :
    WorkersInv p (handleReply p tag status reply returnNs now w) ∧
      Collects w.collectors (handleReply p tag status reply returnNs now w).collectors tag.event
        ((w.collectors tag.event).collected + 1) (w.collectors tag.event).expected
        ((w.collectors tag.event).expected ≠ 0 ∧
          (w.collectors tag.event).collected + 1 = (w.collectors tag.event).expected) := by
  have hnote := @noteCorrection_same p w tag.event (finalStatus (p.ev tag.event) status reply) reply
  unfold handleReply
  generalize hnoted : noteCorrection p tag.event (finalStatus (p.ev tag.event) status reply) reply w =
    noted at hnote
  obtain ⟨hcollectors, hsignals, hsettled, hstatus⟩ := hnote
  simp only [hnoted]
  rw [← hcollectors] at hopen ⊢
  have hinv : WorkersInv p { noted with
      requestReturnNsLog := Function.update noted.requestReturnNsLog tag.logIndex returnNs
      requestStatusLog := Function.update noted.requestStatusLog tag.logIndex
        (statusCode (finalStatus (p.ev tag.event) status reply)) } :=
    h.of_eq hsettled hsignals (fun j => by rw [hcollectors]) hstatus
  exact collect_spec hinv hopen _ _

/-- `handle_event_done`, for an event that is not settled. -/
theorem handleEventDone_spec (h : WorkersInv p w) (done : Done)
    (hopen : (w.collectors done.event).completed = false) :
    WorkersInv p (handleEventDone p done now w) ∧
      Collects w.collectors (handleEventDone p done now w).collectors done.event
        (w.collectors done.event).collected done.issued ((w.collectors done.event).collected = done.issued) := by
  exact h.count { w.collectors done.event with
    expected := done.issued, hasTerm := done.hasTerm, term := done.term } ((w.collectors done.event).collected = done.issued) hopen hopen rfl

end Workers

/-! ## Counting -/

/-- What the collectors have counted, and what is still on the way. -/
structure SettleInv (p : RunPlan) (st : RunState) : Prop where
  workers : WorkersInv p st.workers
  owed : ∀ i, (st.workers.collectors i).collected + st.replies.countP (·.event = i) =
    (wireOf st.timing i).length
  done : ∀ done ∈ st.dones, done.event < st.timing.stage.index ∧
    (st.timing.records done.event).dispatched = true ∧
    done.issued = (wireOf st.timing done.event).length
  distinct : (st.dones.map Done.event).Nodup
  reported : ∀ i, Reported st i → (st.workers.collectors i).expected = (wireOf st.timing i).length
  unreported : ∀ i, ¬ Reported st i → (st.workers.collectors i).expected = 0
  completed : ∀ i, (st.workers.collectors i).completed = true ↔ Ended st i

section Counting

variable {p : RunPlan} {st : RunState} {out : Advance} {i k now : Nat}

theorem ended_iff : Ended st i ↔ Reported st i ∧ st.replies.countP (·.event = i) = 0 := by
  simp [Ended, List.countP_eq_zero]

theorem length_wireOf (t : Timing) (i : Nat) :
    (wireOf t i).length = (t.wire.map Sent.tag).countP (·.event = i) := by
  rw [wireOf, ← List.countP_eq_length_filter, List.countP_map]
  rfl

theorem SettleInv.abort (h : SettleInv p st) (warning : Option String) :
    SettleInv p (st.abort warning) := by
  unfold RunState.abort
  split
  · exact h
  split
  · exact h
  · exact ⟨h.workers, h.owed, h.done, h.distinct, h.reported, h.unreported, h.completed⟩

def RunState.advanced (st : RunState) (out : Advance) : RunState :=
  { st with
    timing := out.timing
    replies := st.replies ++ out.sent
    dones := st.dones ++ out.done }

/-! ## What a step adds to the wire -/

theorem Effect.length_wireOf (he : Effect st.timing out) (i : Nat) :
    (wireOf out.timing i).length = (wireOf st.timing i).length + out.sent.countP (·.event = i) := by
  rw [Playback.length_wireOf, Playback.length_wireOf, he.wire, List.countP_append]

theorem Effect.sent_other (he : Effect st.timing out) (hi : i ≠ st.timing.stage.index) :
    out.sent.countP (·.event = i) = 0 := by
  refine List.countP_eq_zero.mpr fun tag htag => ?_
  simpa [he.sent tag htag] using hi.symm

theorem Effect.index (he : Effect st.timing out) :
    out.timing.stage.index = st.timing.stage.index ∨
      out.timing.stage.index = st.timing.stage.index + 1 := by
  rcases he.next with ⟨-, hnext⟩ | ⟨-, hnext, -⟩
  · exact .inl hnext
  · exact .inr hnext

/-- The timing thread reports nothing itself. -/
theorem Effect.reported (he : Effect st.timing out) : Reported (st.advanced out) i ↔ Reported st i := by
  have hindex := he.index
  have hdone : ∀ done ∈ out.done, done.event = st.timing.stage.index := by
    rcases he.next with ⟨hnone, -⟩ | ⟨-, -, ⟨hnone, -⟩ | ⟨done, hone, hevent, -⟩⟩
    · simp [hnone]
    · simp [hnone]
    · simp [hone, hevent]
  constructor
  · rintro ⟨hlt, hdispatched, hdones⟩
    have hne : i ≠ st.timing.stage.index := by
      rintro rfl
      -- The event at hand: it is not left, or it was not dispatched, or its report is on the way.
      rcases he.next with ⟨-, hsame⟩ | ⟨-, -, ⟨-, hskipped⟩ | ⟨done, hone, hevent, -⟩⟩
      · exact absurd hlt (by rw [RunState.advanced, hsame]; exact Nat.lt_irrefl _)
      · exact absurd hdispatched (by rw [RunState.advanced, hskipped]; exact nofun)
      · refine hdones done ?_ hevent
        rw [RunState.advanced, hone]
        exact List.mem_append_right _ (List.mem_singleton_self _)
    have hlt' : i < out.timing.stage.index := hlt
    refine ⟨by omega, ?_, fun done hmem => hdones done (List.mem_append_left _ hmem)⟩
    rw [← he.records i hne]
    exact hdispatched
  · rintro ⟨hlt, hdispatched, hdones⟩
    refine ⟨?_, ?_, fun done hmem => ?_⟩
    · change i < out.timing.stage.index
      omega
    · change (out.timing.records i).dispatched = true
      rw [he.records i hlt.ne]
      exact hdispatched
    · rcases List.mem_append.mp hmem with hmem | hmem
      · exact hdones done hmem
      · rw [hdone done hmem]
        exact hlt.ne'

/-! ## The steps -/

/-- A step of the timing thread. -/
theorem SettleInv.advance (h : SettleInv p st) (ht : TimingInv p st.timing)
    (he : Effect st.timing out) : SettleInv p (st.advanced out) := by
  have hindex := he.index
  -- the events before the one being sent keep their requests
  have hkept : ∀ i < st.timing.stage.index, (wireOf out.timing i).length = (wireOf st.timing i).length :=
    fun i hi => by rw [he.length_wireOf, he.sent_other hi.ne, Nat.add_zero]
  have hold : ∀ done ∈ st.dones, done.event < out.timing.stage.index ∧
      (out.timing.records done.event).dispatched = true ∧
      done.issued = (wireOf out.timing done.event).length := by
    intro done hdone
    obtain ⟨hlt, hdispatched, hissued⟩ := h.done done hdone
    rw [he.records _ hlt.ne, hkept _ hlt]
    exact ⟨by omega, hdispatched, hissued⟩
  have hreplies : ∀ i, (st.advanced out).replies.countP (·.event = i) =
      st.replies.countP (·.event = i) + out.sent.countP (·.event = i) :=
    fun i => List.countP_append
  constructor
  · exact h.workers
  · intro i
    have := h.owed i
    have := he.length_wireOf i
    rw [hreplies]
    change (st.workers.collectors i).collected + _ = (wireOf out.timing i).length
    omega
  · intro done hdone
    rcases List.mem_append.mp hdone with hdone | hdone
    · exact hold done hdone
    · rcases he.next with ⟨hnone, -⟩ | ⟨hsent, hnext, ⟨hnone, -⟩ | ⟨d, hone, hevent, hissued, hdispatched⟩⟩
      · simp [hnone] at hdone
      · simp [hnone] at hdone
      · rw [hone] at hdone
        obtain rfl := List.mem_singleton.mp hdone
        change done.event < out.timing.stage.index ∧ _ ∧ done.issued = (wireOf out.timing _).length
        rw [he.length_wireOf, hsent, hevent, ht.stage.current]
        exact ⟨by omega, hdispatched, hissued⟩
  · change ((st.dones ++ out.done).map Done.event).Nodup
    -- a step ends its event at most once, and then with a report
    rcases he.next with ⟨hnone, -⟩ | ⟨-, -, ⟨hnone, -⟩ | ⟨d, hone, hevent, -⟩⟩
    · rw [hnone, List.append_nil]
      exact h.distinct
    · rw [hnone, List.append_nil]
      exact h.distinct
    · rw [hone, List.map_append, List.nodup_append]
      refine ⟨h.distinct, by simp, ?_⟩
      rintro a ha b hb rfl
      obtain ⟨done, hdone, rfl⟩ := List.mem_map.mp ha
      have hsame : done.event = d.event := by simpa using hb
      have := (h.done done hdone).1
      omega
  · intro i hi
    have hi := he.reported.mp hi
    exact (h.reported i hi).trans (hkept i hi.1).symm
  · exact fun i hi => h.unreported i fun hi' => hi (he.reported.mpr hi')
  · intro i
    rw [ended_iff, he.reported, hreplies]
    refine (h.completed i).trans (ended_iff.trans (and_congr_right fun hi => ?_))
    rw [he.sent_other hi.1.ne, Nat.add_zero]

/-- Only event `i` counts on. -/
theorem Collects.completed_iff {cols cols' : Nat → CollectorEntry} {collected expected : Nat}
    {ends : Prop} {E : Nat → Prop} (h : Collects cols cols' i collected expected ends)
    (hold : ∀ j, j ≠ i → ((cols j).completed = true ↔ E j)) (hnew : ends ↔ E i) (j : Nat) :
    (cols' j).completed = true ↔ E j := by
  by_cases hj : j = i
  · subst hj
    exact h.completed.trans hnew
  · rw [h.others j hj]
    exact hold j hj

theorem perm_pick {α : Type*} {l : List α} {a : α} (h : l[k]? = some a) :
    List.Perm (a :: l.eraseIdx k) l := by
  obtain ⟨hlt, rfl⟩ := List.getElem?_eq_some_iff.mp h
  exact List.getElem_cons_eraseIdx_perm hlt

/-- A reply comes in. -/
theorem SettleInv.reply (h : SettleInv p st) {tag : Tag} (hk : st.replies[k]? = some tag)
    (status : RpcStatus) (reply : List UInt8) (returnNs : Nat) :
    SettleInv p { st with
      workers := handleReply p tag status reply returnNs now st.workers
      replies := st.replies.eraseIdx k } := by
  have hperm := perm_pick hk
  have hcount : ∀ j, st.replies.countP (·.event = j) =
      (st.replies.eraseIdx k).countP (·.event = j) + if tag.event = j then 1 else 0 := by
    intro j
    rw [← hperm.countP_eq, List.countP_cons]
    simp
  -- a reply was outstanding, so its collector cannot have been complete
  have hopen : (st.workers.collectors tag.event).completed = false := by
    by_contra hdone
    have := (ended_iff.mp ((h.completed _).mp (by simpa using hdone))).2
    rw [hcount, if_pos rfl] at this
    omega
  obtain ⟨hworkers, hcollects⟩ :=
    @handleReply_spec p st.workers now h.workers tag hopen status reply returnNs
  have howed := h.owed tag.event
  rw [hcount, if_pos rfl] at howed
  -- a reply announces nothing: only a report sets what is expected
  have hexpected : ∀ j, ((handleReply p tag status reply returnNs now st.workers).collectors j).expected =
      (st.workers.collectors j).expected := by
    intro j
    by_cases hj : j = tag.event
    · rw [hj, hcollects.expected]
    · rw [hcollects.others j hj]
  constructor
  · exact hworkers
  · intro j
    change ((handleReply p tag status reply returnNs now st.workers).collectors j).collected +
      (st.replies.eraseIdx k).countP (·.event = j) = (wireOf st.timing j).length
    by_cases hj : j = tag.event
    · rw [hj, hcollects.collected]
      omega
    · have := h.owed j
      rw [hcount, if_neg (Ne.symm hj)] at this
      rw [hcollects.others j hj]
      exact this
  · exact h.done
  · exact h.distinct
  · exact fun j hj => (hexpected j).trans (h.reported j hj)
  · exact fun j hj => (hexpected j).trans (h.unreported j hj)
  · refine hcollects.completed_iff (fun j hj => ?_) ?_
    · rw [h.completed j, ended_iff, ended_iff, hcount, if_neg (Ne.symm hj)]
      rfl
    · rw [ended_iff]
      change _ ↔ Reported st tag.event ∧ (st.replies.eraseIdx k).countP (·.event = tag.event) = 0
      by_cases hreported : Reported st tag.event
      · have := h.reported _ hreported
        simp only [hreported, true_and]
        omega
      · simp [hreported, h.unreported _ hreported]

/-- An event is reported done. -/
theorem SettleInv.eventDone (h : SettleInv p st) {done : Done} (hk : st.dones[k]? = some done) :
    SettleInv p { st with
      workers := handleEventDone p done now st.workers
      dones := st.dones.eraseIdx k } := by
  have hperm := perm_pick hk
  have hmem : ∀ d, d ∈ st.dones ↔ d = done ∨ d ∈ st.dones.eraseIdx k := fun d => by
    rw [← hperm.mem_iff, List.mem_cons]
  have hnodup := (hperm.map Done.event).nodup_iff.mpr h.distinct
  rw [List.map_cons, List.nodup_cons] at hnodup
  obtain ⟨hlast, hdistinct⟩ := hnodup
  -- while a report is under way its event is not reported yet
  have hnot : ¬ Reported st done.event := fun hr => hr.2.2 done ((hmem done).mpr (.inl rfl)) rfl
  obtain ⟨hbehind, hdispatched, hissued⟩ := h.done done ((hmem done).mpr (.inl rfl))
  generalize hst' : ({ st with
    workers := handleEventDone p done now st.workers
    dones := st.dones.eraseIdx k } : RunState) = st'
  have hreported : Reported st' done.event := by
    rw [← hst']
    exact ⟨hbehind, hdispatched, fun d hd heq => hlast (heq ▸ List.mem_map_of_mem hd)⟩
  -- no other event changes what it is
  have hsame : ∀ j, j ≠ done.event → (Reported st' j ↔ Reported st j) := by
    intro j hj
    rw [← hst']
    refine and_congr_right fun _ => and_congr_right fun _ => ⟨fun hall d hd => ?_, fun hall d hd => ?_⟩
    · rcases (hmem d).mp hd with rfl | hd
      · exact hj.symm
      · exact hall d hd
    · exact hall d ((hmem d).mpr (.inr hd))
  -- a collector is complete only for a reported event, so this one's still counts
  have hopen : (st.workers.collectors done.event).completed = false := by
    by_contra hdone
    exact hnot ((h.completed _).mp (by simpa using hdone)).1
  obtain ⟨hworkers, hcollects⟩ := @handleEventDone_spec p st.workers now h.workers done hopen
  have howed := h.owed done.event
  have hcols : st'.workers.collectors = (handleEventDone p done now st.workers).collectors := by
    rw [← hst']
  have hwire : st'.timing = st.timing := by rw [← hst']
  have hreplies : st'.replies = st.replies := by rw [← hst']
  have hdones : st'.dones = st.dones.eraseIdx k := by rw [← hst']
  rw [← hcols] at hcollects
  constructor
  · rw [← hst']
    exact hworkers
  · intro j
    rw [hwire, hreplies]
    by_cases hj : j = done.event
    · rw [hj, hcollects.collected]
      exact howed
    · rw [hcollects.others j hj]
      exact h.owed j
  · intro d hd
    rw [hwire]
    rw [hdones] at hd
    exact h.done d ((hmem d).mpr (.inr hd))
  · rw [hdones]
    exact hdistinct
  · intro j hj
    rw [hwire]
    by_cases hd : j = done.event
    · rw [hd, hcollects.expected, hissued]
    · rw [hcollects.others j hd]
      exact h.reported j ((hsame j hd).mp hj)
  · intro j hj
    have hd : j ≠ done.event := by
      rintro rfl
      exact hj hreported
    rw [hcollects.others j hd]
    exact h.unreported j fun hr => hj ((hsame j hd).mpr hr)
  · refine hcollects.completed_iff (fun j hj => ?_) ?_
    · rw [h.completed j, ended_iff, ended_iff, hsame j hj, hreplies]
    · rw [ended_iff, hreplies, hissued]
      simp only [hreported, true_and]
      omega

end Counting

/-! ## Runs -/

/-- What a place has to find that `plan` does not see to: a stream that nothing was planned for has a source
to draw from, and a signal that it waits for exists. -/
def Stage.Served (p : RunPlan) (raised : Nat → Bool) : Stage → Prop
  | .waiting i => ((p.ev i).afterSignalId = kNoSignal ∨ raised (p.ev i).afterSignalId = true) →
    (p.ev i).sendsRounds = true → p.ep i = [] → p.sources (p.ev i).sourceId = true
  | .deciding i _ => (p.ev i).untilSignalId ≠ kNoSignal →
    (p.ev i).untilSignalId < p.sched.signalNames.length
  | .next _ | .sent _ | .streaming _ _ | .finished _ | .failed _ _ => True

instance (p : RunPlan) (raised : Nat → Bool) : (s : Stage) → Decidable (s.Served p raised)
  | .waiting i => inferInstanceAs (Decidable
    (((p.ev i).afterSignalId = kNoSignal ∨ raised (p.ev i).afterSignalId = true) →
      (p.ev i).sendsRounds = true → p.ep i = [] → p.sources (p.ev i).sourceId = true))
  | .deciding i _ => inferInstanceAs (Decidable ((p.ev i).untilSignalId ≠ kNoSignal →
    (p.ev i).untilSignalId < p.sched.signalNames.length))
  | .next _ | .sent _ | .streaming _ _ | .finished _ | .failed _ _ => isTrue trivial

/-- What an action has to find: 32 bits index what it logs, and its place is served. -/
def Provided (p : RunPlan) (st : RunState) : Action → Prop
  | .timing draw => Fits p st.aborted draw st.timing ∧ st.timing.stage.Served p st.workers.signals
  | .reply _ _ _ _ _ | .eventDone _ _ => True

instance (p : RunPlan) (st : RunState) : (action : Action) → Decidable (Provided p st action)
  | .timing draw => inferInstanceAs (Decidable
    (Fits p st.aborted draw st.timing ∧ st.timing.stage.Served p st.workers.signals))
  | .reply _ _ _ _ _ | .eventDone _ _ => isTrue trivial

@[grind =] def AllProvided (p : RunPlan) : RunState → List Action → Prop
  | _, [] => True
  | st, action :: rest => Provided p st action ∧ ∀ st' ∈ step p st action, AllProvided p st' rest

instance decidableAllProvided (p : RunPlan) :
    (st : RunState) → (actions : List Action) → Decidable (AllProvided p st actions)
  | _, [] => isTrue trivial
  | st, action :: rest =>
    have (st' : RunState) := decidableAllProvided p st' rest
    inferInstanceAs (Decidable
      (Provided p st action ∧ ∀ st' ∈ step p st action, AllProvided p st' rest))

/-- What holds in every state of such a run. -/
structure RunInv (p : RunPlan) (st : RunState) : Prop where
  timing : TimingInv p st.timing
  frames : FramesKept p st.timing.frameArena
  settle : SettleInv p st
  running : ∀ i rounds, st.timing.stage ≠ .failed i rounds

section Runs

variable {p : RunPlan} {st st' : RunState}

/-! ## Steps that do not fail -/

theorem afterRound_ne_failed (e : Event) (i rounds j k : Nat) : afterRound e i rounds ≠ .failed j k := by
  unfold afterRound
  split
  · exact nofun
  · exact nofun

theorem streamRound_running (aborted : Bool) (draw : Except String (List Bool)) (t : Timing)
    (i rounds j k : Nat) : (streamRound p aborted draw t i rounds).timing.stage ≠ .failed j k := by
  have hend : ∀ term abort, (endStream t i rounds term abort).timing.stage ≠ .failed j k := nofun
  unfold streamRound
  by_cases haborted : aborted = true
  · simp only [haborted, if_true]
    exact hend _ _
  by_cases hmax : (p.ev i).streamMaxRounds ≤ rounds
  · simp only [haborted, hmax, if_true]
    exact hend _ _
  simp only [haborted, hmax, Bool.false_eq_true, if_false]
  by_cases hep : p.ep i = []
  · simp only [hep, ne_eq, not_true_eq_false, if_false]
    cases draw with
    | error what => exact hend _ _
    | ok bits =>
      simp only
      split
      · exact hend _ _
      split
      · exact hend _ _
      · exact afterRound_ne_failed _ _ _ _ _
  · simp only [ne_eq, hep, not_false_eq_true, if_true]
    cases (p.ep i)[rounds]? with
    | none => exact hend _ _
    | some rp => exact afterRound_ne_failed _ _ _ _ _

/-- No exception leaves the loop over the events. -/
theorem advance_running (hp : Planned p) (h : TimingInv p st.timing) {draw : Except String (List Bool)}
    (hserved : st.timing.stage.Served p st.workers.signals) {out : Advance}
    (ha : advance p st.aborted st.workers.signals draw st.timing = some out) (j k : Nat) :
    out.timing.stage ≠ .failed j k := by
  have hrange := h.stage.inRange
  unfold advance at ha
  cases hstage : st.timing.stage with
  | next i =>
    simp only [hstage, Option.some.injEq] at ha
    subst ha
    split
    · simp
    · simp
  | waiting i =>
    rw [hstage] at hrange hserved
    simp only [hstage] at ha
    split at ha
    · obtain rfl := Option.some.inj ha
      split
      · simp
      · simp
    · next hgo =>
      obtain rfl := Option.some.inj ha
      -- the event is waited for no longer, so a source it streams from has been declared
      have hraised : (p.ev i).afterSignalId = kNoSignal ∨
          st.workers.signals (p.ev i).afterSignalId = true := by
        by_cases hafter : (p.ev i).afterSignalId = kNoSignal
        · exact .inl hafter
        · exact .inr (by simpa [hafter] using hgo)
      have hsource := hserved hraised
      have hsingle : (p.ev i).sendsRounds = false → ∃ rp, (p.ep i)[0]? = some rp := by
        intro hsends
        obtain ⟨rp, hep⟩ := List.length_eq_one_iff.mp (hp.single i (hrange rfl) hsends)
        exact ⟨rp, by rw [hep]; rfl⟩
      unfold dispatchEvent
      cases hop : (p.ev i).op with
      | reset | getCorrections | getLogicalMeasurements =>
        obtain ⟨rp, hrp⟩ := hsingle (by simp [Event.sendsRounds, hop])
        simp only [hop, hrp]
        intro hat
        cases hat
      | stream | enqueueData =>
        simp only [hop]
        rw [if_neg fun hmissing => by
          simpa [hmissing.2] using hsource (by simp [Event.sendsRounds, hop]) hmissing.1]
        simp
  | sent i =>
    simp only [hstage, Option.some.injEq] at ha
    subst ha
    simp
  | streaming i rounds =>
    simp only [hstage, Option.some.injEq] at ha
    exact ha ▸ streamRound_running _ _ _ _ _ j k
  | deciding i rounds =>
    rw [hstage] at hserved
    simp only [hstage] at ha
    split at ha
    · obtain rfl := Option.some.inj ha
      intro hat
      cases hat
    -- a stream without an end asks for another round only while its source is served
    next hasks =>
    split at ha
    · have := hserved hasks
      omega
    split at ha
    · obtain rfl := Option.some.inj ha
      intro hat
      cases hat
    · obtain rfl := Option.some.inj ha
      intro hat
      cases hat
  | finished i => simp [hstage] at ha
  | failed i rounds => simp [hstage] at ha

/-! ## The invariant of a run -/

theorem RunInv.abort (h : RunInv p st) (warning : Option String) : RunInv p (st.abort warning) := by
  have htiming : (st.abort warning).timing = st.timing := by
    unfold RunState.abort
    split
    · rfl
    split
    · rfl
    · rfl
  refine ⟨?_, ?_, h.settle.abort warning, ?_⟩
  all_goals rw [htiming]
  · exact h.timing
  · exact h.frames
  · exact h.running

theorem RunInv.step (hp : Planned p) (h : RunInv p st) {action : Action}
    (hprovided : Provided p st action)
    (hstep : step p st action = some st') : RunInv p st' := by
  cases action with
  | timing draw =>
    obtain ⟨out, ha, rfl⟩ := Option.map_eq_some_iff.mp hstep
    obtain ⟨hfits, hserved⟩ := hprovided
    have hspec := advance_spec hp h.timing h.frames hfits ha
    have hinv : RunInv p (st.advanced out) :=
      { timing := hspec.inv
        frames := hspec.frames
        settle := h.settle.advance h.timing hspec.effect
        running := advance_running hp h.timing hserved ha }
    exact hinv.abort out.abort
  | reply k status reply returnNs now =>
    obtain ⟨tag, hk, rfl⟩ := Option.map_eq_some_iff.mp hstep
    refine RunInv.abort ?_ _
    exact ⟨h.timing, h.frames, h.settle.reply hk status reply returnNs, h.running⟩
  | eventDone k now =>
    obtain ⟨done, hk, rfl⟩ := Option.map_eq_some_iff.mp hstep
    exact ⟨h.timing, h.frames, h.settle.eventDone hk, h.running⟩

theorem RunInv.run (hp : Planned p) (h : RunInv p st) {actions : List Action}
    (hprovided : AllProvided p st actions) (hrun : actions.foldlM (Playback.step p) st = some st') :
    RunInv p st' := by
  induction actions generalizing st with
  | nil => exact Option.some.inj hrun ▸ h
  | cons action rest ih =>
    rw [List.foldlM_cons, Option.bind_eq_bind, Option.bind_eq_some_iff] at hrun
    obtain ⟨st₁, hstep, hrest⟩ := hrun
    exact ih (h.step hp hprovided.1 hstep) (hprovided.2 st₁ hstep) hrest

/-- Nothing is sent, logged or settled yet. -/
theorem runInv_start (hp : Planned p) : RunInv p (start p) where
  timing :=
    { log :=
        { nextId := rfl
          total := rfl
          logged := fun _ => ⟨rfl, rfl, [], rfl, rfl, rfl⟩
          inside := fun _ => ⟨Nat.le_refl _, Nat.le_refl _⟩
          apart := fun _ _ _ => ⟨nofun, nofun⟩ }
      stage :=
        { current := rfl
          future := fun _ _ => ⟨rfl, rfl⟩
          fresh := fun _ => rfl
          inRange := nofun
          dispatched := nofun
          streams := nofun
          bound := Nat.zero_le _
          budget := Nat.zero_le _
          ends := nofun
          bitsEnd := nofun } }
  frames := hp.framesKept
  settle := by
    have hnone : ∀ i, ¬ Reported (start p) i := fun i hi => Nat.not_lt_zero i hi.1
    exact
      { workers := ⟨List.nodup_nil, by simp [start], fun _ _ => rfl, by simp [start]⟩
        owed := fun _ => rfl
        done := nofun
        distinct := List.nodup_nil
        reported := fun i hi => absurd hi (hnone i)
        unreported := fun _ _ => rfl
        completed := fun i => iff_of_false nofun fun hended => hnone i hended.1 }
  running := nofun

/-- What the invariant says of the run so far. -/
theorem RunInv.played (hp : Planned p) (h : RunInv p st) : Played p st where
  once := h.settle.workers.nodup
  settled := fun i => (h.settle.workers.completed i).trans (h.settle.completed i)
  unsettled := h.settle.workers.status
  signals := h.settle.workers.signals
  complete := by
    rintro ⟨hover, hreplies, hdones⟩ i hdispatched
    rw [h.settle.workers.completed, h.settle.completed]
    have hstage : st.timing.stage.before = true := by
      cases hs : st.timing.stage with
      | finished i => rfl
      | failed i rounds => exact absurd hs (h.running i rounds)
      | next i | waiting i | sent i | streaming i rounds | deciding i rounds =>
        rw [hs] at hover
        exact absurd hover nofun
    -- An event that is not behind the thread is not dispatched.
    have hbehind : i < st.timing.stage.index := by
      by_contra hge
      have hfresh : st.timing.records i = {} := by
        rcases Nat.eq_or_lt_of_le (Nat.le_of_not_lt hge) with heq | hlt
        · exact heq ▸ h.timing.stage.fresh hstage
        · exact (h.timing.stage.future i hlt).1
      rw [hfresh] at hdispatched
      exact absurd hdispatched nofun
    exact ⟨⟨hbehind, hdispatched, by simp [hdones]⟩, by simp [hreplies]⟩
  counted := ⟨h.timing.le_maxRequests hp, h.timing.log.total.symm⟩
  logged := h.timing.log.logged
  apart := h.timing.log.apart

/-- Every run of a plan settles its events as it should, as long as its steps find what they need. -/
theorem run_played {σ : Type} {sched : Schedule} {router : Nat → Option Session} {sources : Sources σ}
    {params : RunParams} {state state' : σ} {actions : List Action}
    (hplan : plan sched router sources params state = .ok (p, state'))
    (hfit : Addressed p.frameArena p.eventPlans.flatten) (hprovided : AllProvided p (start p) actions)
    (hrun : run p actions = some st) : Played p st := by
  have hp := plan_planned hplan hfit
  exact ((runInv_start hp).run hp hprovided hrun).played hp

/-! ## Two events -/

def twoEvents : Schedule where
  events := [{ op := .stream, syndromeCount := 2, signalId := 0 },
    { op := .getCorrections, returnSize := 1, afterSignalId := 0 }]
  syndromeArena := [true, false]
  signalNames := [['s']]

def noSources : Sources Unit :=
  ⟨fun _ => false, fun _ => false, fun _ _ => .error (invalid "no source"),
    fun _ _ => .error (invalid "no source")⟩

def twoEventsRun : List Action :=
  .replicate 5 (.timing (.ok [])) ++ ([.reply 0 .ok [] 7 8, .eventDone 0 9] ++
    (.replicate 3 (.timing (.ok [])) ++ [.eventDone 0 10, .reply 0 .ok [1] 11 12]))

theorem run_played_twoEvents : ∃ p state' st,
    plan twoEvents (fun _ => some ⟨0, 0⟩) noSources {} () = .ok (p, state') ∧
    Addressed p.frameArena p.eventPlans.flatten ∧ AllProvided p (start p) twoEventsRun ∧
    run p twoEventsRun = some st ∧ Played p st := by
  have hplan : plan twoEvents (fun _ => some ⟨0, 0⟩) noSources {} () = .ok (_, ()) := rfl
  refine ⟨_, _, _, hplan, ?fit, ?provided, rfl, run_played hplan ?fit ?provided rfl⟩
  case fit =>
    unfold Addressed
    decide
  case provided => decide

/-! ## A stream without an end -/

def longStream : Event := { op := .stream, sourceId := 0, streamMinRounds := 2 ^ 16, streamMaxRounds := 2 ^ 16 }

def liveSource : Sources Unit :=
  ⟨fun _ => true, fun _ => true, fun _ _ => .error (invalid "streamed"),
    fun _ _ => .error (invalid "streamed")⟩

def longPlan : RunPlan where
  sched := { events := [longStream] }
  frameArena := []
  eventPlans := [[]]
  router := fun _ => some ⟨0, 0⟩
  sources := fun _ => true
  params := {}
  maxRequests := 2 ^ 16

theorem plan_longStream :
    plan { events := [longStream] } (fun _ => some ⟨0, 0⟩) liveSource {} () = .ok (longPlan, ()) := rfl

/-- Where the long stream is after some rounds of 2^16 bits each. -/
structure LongRounds (rounds : Nat) (st : RunState) : Prop where
  stage : st.timing.stage = afterRound longStream 0 rounds
  going : st.aborted = false
  count : (st.timing.records 0).syndromeCount = u32 (rounds * 2 ^ 16)
  wire : st.timing.wire.length = rounds
  frames : ∀ sent ∈ st.timing.wire, sent.tag.event = 0 ∧ 56 < sent.frame.length

theorem length_requestFrame_stream (params : RunParams) (rid : UInt32) (bits : List Bool) :
    (requestFrame params longStream rid bits).length = 56 + Realtime.bitPackedBytes bits.length := by
  simp [requestFrame, longStream, Realtime.buildEnqueueFrame, Realtime.buildFrame,
    Realtime.appendPackedBits, length_headerBytes, bitBytes]
  omega

theorem LongRounds.step {rounds : Nat} {bits : List Bool} (h : LongRounds rounds st)
    (hlt : rounds < 2 ^ 16) (hbits : bits.length = 2 ^ 16) :
    ∃ st', step longPlan st (.timing (.ok bits)) = some st' ∧ LongRounds (rounds + 1) st' := by
  have hstage : st.timing.stage = .streaming 0 rounds := h.stage.trans (if_pos hlt)
  have hmax : ¬ (longPlan.ev 0).streamMaxRounds ≤ rounds := Nat.not_le_of_lt hlt
  have hep : ¬ longPlan.ep 0 ≠ [] := fun hne => hne rfl
  have hne : ¬ bits = [] := fun hnil => by simp [hnil] at hbits
  have hsize : ¬ oversized longPlan 0 bits = true := by simp [oversized, longPlan]
  -- no bound is reached, so the round is built and sent
  have hround : streamRound longPlan false (.ok bits) st.timing 0 rounds =
      sendBuilt st.timing 0 (requestFrame {} longStream 0 bits) bits (rounds = 0)
        (afterRound longStream 0 (rounds + 1)) := by
    unfold streamRound
    simp only [hmax, hep, hne, hsize, Bool.false_eq_true, if_false]
    rfl
  refine ⟨_, by simp only [Playback.step, advance, hstage, h.going, hround, Option.map_some]; rfl, ?_⟩
  constructor
  · rfl
  · rfl
  · change (Function.update st.timing.records 0 _ 0).syndromeCount = _
    rw [Function.update_self]
    change u32 ((st.timing.records 0).syndromeCount + u32 bits.length) = _
    rw [h.count, hbits]
    simp only [u32]
    omega
  · change (st.timing.wire ++ [_]).length = rounds + 1
    rw [List.length_append, h.wire]
    rfl
  · intro sent hsent
    rcases List.mem_append.mp hsent with hsent | hsent
    · exact h.frames sent hsent
    · obtain rfl := List.mem_singleton.mp hsent
      refine ⟨rfl, ?_⟩
      have hlen := length_requestFrame_stream {} 0 bits
      rw [hbits] at hlen
      change 56 < (setRequestId _ 0 _).length
      rw [setRequestId, length_overwrite]
      · rw [hlen]
        decide
      · rw [hlen, Realtime.length_bytesOf]
        decide

theorem LongRounds.run {rounds more : Nat} {bits : List Bool} (h : LongRounds rounds st)
    (hle : rounds + more ≤ 2 ^ 16) (hbits : bits.length = 2 ^ 16) :
    ∃ st', (List.replicate more (.timing (.ok bits))).foldlM (Playback.step longPlan) st = some st' ∧
      LongRounds (rounds + more) st' := by
  induction more generalizing rounds st with
  | zero => exact ⟨st, rfl, h⟩
  | succ more ih =>
    obtain ⟨st₁, hstep, h₁⟩ := h.step (by omega) hbits
    obtain ⟨st', hrun, h'⟩ := ih h₁ (by omega)
    refine ⟨st', ?_, by rwa [Nat.add_assoc, Nat.add_comm 1] at h'⟩
    rw [List.replicate_succ, List.foldlM_cons, hstep]
    exact hrun

/-- The bits of a stream that sends 2^32 of them are lost: their number wraps to 0. -/
theorem not_played : ¬ ∀ (sched : Schedule) (router : Nat → Option Session) (sources : Sources Unit)
    (params : RunParams) (p : RunPlan) (actions : List Action) (st : RunState),
    plan sched router sources params () = .ok (p, ()) → run p actions = some st → Played p st := by
  intro h
  have hbits : (List.replicate (2 ^ 16) false).length = 2 ^ 16 := List.length_replicate
  generalize List.replicate (2 ^ 16) false = bits at hbits
  obtain ⟨st₀, hfirst, h₀⟩ : ∃ st₀,
      (List.replicate 2 (.timing (.ok bits))).foldlM (step longPlan) (start longPlan) = some st₀ ∧
        LongRounds 0 st₀ :=
    ⟨_, rfl, rfl, rfl, rfl, rfl, nofun⟩
  obtain ⟨st, hrest, hst⟩ := @LongRounds.run st₀ 0 (2 ^ 16) bits h₀ (by omega) hbits
  have hrun : run longPlan (.replicate 2 (.timing (.ok bits)) ++ .replicate (2 ^ 16) (.timing (.ok bits))) =
      some st := by
    rw [run, List.foldlM_append, hfirst]
    exact hrest
  have hlogged := (h _ _ _ _ _ _ _ plan_longStream hrun).logged 0
  have hwire : wireOf st.timing 0 = st.timing.wire :=
    List.filter_eq_self.mpr fun sent hsent => by simpa using (hst.frames sent hsent).1
  obtain ⟨rounds, hlen, hframes, hslice⟩ := hlogged.content
  -- The slice is empty, so that no round can have carried a bit.
  have hcount : (st.timing.records 0).syndromes.2 = 0 := by
    rw [SentRecord.syndromes, hst.count]
    rfl
  have hnone : rounds.flatten = [] := by
    rw [← hslice, slice, hcount, List.take_zero]
  rw [hwire] at hframes
  obtain ⟨sent, hsent⟩ : ∃ sent, sent ∈ st.timing.wire := by
    refine List.exists_mem_of_length_pos ?_
    rw [hst.wire]
    decide
  have hmem := List.mem_map_of_mem (f := Sent.frame) hsent
  rw [hframes] at hmem
  obtain ⟨rid, round, hround, hframe⟩ : ∃ rid, ∃ round ∈ rounds,
      requestFrame {} longStream (.ofNat rid) round = sent.frame := by
    rw [← List.map_uncurry_zip_eq_zipWith] at hmem
    obtain ⟨⟨rid, round⟩, hzip, hframe⟩ := List.mem_map.mp hmem
    exact ⟨rid, round, (List.of_mem_zip hzip).2, hframe⟩
  rw [List.flatten_eq_nil_iff.mp hnone round hround] at hframe
  have hlarge := (hst.frames sent hsent).2
  rw [← hframe, length_requestFrame_stream] at hlarge
  exact absurd hlarge (by decide)

end Runs

end CudaqQec.Playback
