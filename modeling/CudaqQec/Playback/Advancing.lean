import CudaqQec.Playback.Requests

/-!
# The steps of the timing thread

What one step of the timing thread does (`advance_spec`): the logs stay true to what is sent, and what it
makes known to the sessions is a request of the event at hand or, once, that the event is done.
-/

namespace CudaqQec.Playback

open Checked Arena

/-! ## Frames that are sent from the arena -/

/-- The frames in the arena are those of the plan, but for the ids. -/
structure FramesKept (p : RunPlan) (frames : List UInt8) : Prop where
  length : frames.length = p.frameArena.length
  content : ∀ rp ∈ p.eventPlans.flatten, ∃ rid < 2 ^ 32,
    slice frames rp.frame = setRequestId (slice p.frameArena rp.frame) 0 rid

section Frames

variable {p : RunPlan} {frames : List UInt8} {rp : RoundPlan} {i rid : Nat}

/-! ## Frames of the plan -/

theorem mem_flatten_of_mem_ep (h : rp ∈ p.ep i) : rp ∈ p.eventPlans.flatten := by
  have hi : i < p.eventPlans.length := by
    by_contra hge
    rw [RunPlan.ep, List.getD_eq_default _ _ (Nat.le_of_not_lt hge)] at h
    simp at h
  rw [RunPlan.ep, List.getD_eq_getElem _ _ hi] at h
  exact List.mem_flatten.mpr ⟨_, List.getElem_mem hi, h⟩

theorem exists_ep_of_mem_flatten (h : rp ∈ p.eventPlans.flatten) : ∃ i, rp ∈ p.ep i := by
  obtain ⟨ep, hep, hrp⟩ := List.mem_flatten.mp h
  obtain ⟨i, hi, rfl⟩ := List.mem_iff_getElem.mp hep
  exact ⟨i, by rwa [RunPlan.ep, List.getD_eq_getElem _ _ hi]⟩

theorem Planned.frame_eq_or_apart (hp : Planned p) {rp' : RoundPlan} (h : rp ∈ p.eventPlans.flatten)
    (h' : rp' ∈ p.eventPlans.flatten) : rp.frame = rp'.frame ∨
      rp.frame.1 + rp.frame.2 ≤ rp'.frame.1 ∨ rp'.frame.1 + rp'.frame.2 ≤ rp.frame.1 := by
  have hpos : ∀ rp ∈ p.eventPlans.flatten, 0 < rp.frame.2 := fun rp hrp => by
    obtain ⟨i, hi⟩ := exists_ep_of_mem_flatten hrp
    have := (hp.ready i rp hi).header
    omega
  have hpair := List.pairwise_map.mp hp.laid.apart
  have hall : p.eventPlans.flatten.Pairwise fun a b => a.frame = b.frame ∨
      a.frame.1 + a.frame.2 ≤ b.frame.1 ∨ b.frame.1 + b.frame.2 ≤ a.frame.1 :=
    hpair.imp_of_mem fun ha hb hab => .inr (.inl (hab (hpos _ ha) (hpos _ hb)))
  have hflip := hall.imp (S := fun a b => b.frame = a.frame ∨
      b.frame.1 + b.frame.2 ≤ a.frame.1 ∨ a.frame.1 + a.frame.2 ≤ b.frame.1) fun hab => by
    rcases hab with h | h | h
    · exact .inl h.symm
    · exact .inr (.inr h)
    · exact .inr (.inl h)
  exact hall.forall_of_forall_of_flip (fun _ _ => .inl rfl) hflip h h'

theorem FramesKept.slice_setId (hp : Planned p) (h : FramesKept p frames) (hrp : rp ∈ p.ep i)
    (hrid : rid < 2 ^ 32) :
    slice (setRequestId frames rp.frameOffset rid) rp.frame =
      requestFrame p.params (p.ev i) (.ofNat rid) (slice p.sched.syndromeArena rp.bits) := by
  have hready := hp.ready i rp hrp
  have hheader := hready.header
  obtain ⟨rid₀, -, hslice⟩ := h.content rp (mem_flatten_of_mem_ep hrp)
  have hinside := hready.inside
  rw [← h.length] at hinside
  have hlen := length_slice hready.inside
  have hover : slice (setRequestId frames rp.frameOffset rid) rp.frame =
      overwrite (slice frames rp.frame) 12 (Realtime.bytesOf 4 rid) :=
    slice_overwrite_inside hinside (by simp; omega)
  rw [hover, hslice, setRequestId, overwrite_overwrite (by simp) (by simp; omega),
    ← setRequestId_requestFrame p.params (p.ev i) _ 0 hrid, ← hready.content]
  rfl

theorem FramesKept.setId (hp : Planned p) (h : FramesKept p frames) (hrp : rp ∈ p.ep i)
    (hrid : rid < 2 ^ 32) : FramesKept p (setRequestId frames rp.frameOffset rid) := by
  have hready := hp.ready i rp hrp
  have hheader := hready.header
  have hinside := hready.inside
  rw [← h.length] at hinside
  have hfits : rp.frameOffset + 12 + (Realtime.bytesOf 4 rid).length ≤ frames.length := by
    rw [Realtime.length_bytesOf]
    simp only [RoundPlan.frame] at hheader hinside
    omega
  refine ⟨(length_overwrite hfits).trans h.length, fun rp' hrp' => ?_⟩
  rcases hp.frame_eq_or_apart (mem_flatten_of_mem_ep hrp) hrp' with heq | hapart
  · refine ⟨rid, hrid, ?_⟩
    rw [← heq, h.slice_setId hp hrp hrid, hready.content,
      setRequestId_requestFrame p.params (p.ev i) _ 0 hrid]
  · obtain ⟨rid₀, hrid₀, hslice⟩ := h.content rp' hrp'
    refine ⟨rid₀, hrid₀, ?_⟩
    rw [← hslice]
    refine slice_overwrite_of_apart hfits ?_
    rw [Realtime.length_bytesOf]
    simp only [RoundPlan.frame] at hapart hheader
    simp only [RoundPlan.frame]
    omega

theorem Planned.framesKept (hp : Planned p) : FramesKept p p.frameArena := by
  refine ⟨rfl, fun rp hrp => ⟨0, by decide, ?_⟩⟩
  obtain ⟨i, hi⟩ := exists_ep_of_mem_flatten hrp
  rw [(hp.ready i rp hi).content]
  exact (setRequestId_requestFrame p.params (p.ev i) _ 0 (by decide)).symm

end Frames

/-! ## What a step makes known -/

/-- What a step of the timing thread tells the sessions. -/
structure Effect (t : Timing) (out : Advance) : Prop where
  wire : out.timing.wire.map Sent.tag = t.wire.map Sent.tag ++ out.sent
  sent : ∀ tag ∈ out.sent, tag.event = t.stage.index
  records : ∀ j, j ≠ t.stage.index → out.timing.records j = t.records j
  next : (out.done = [] ∧ out.timing.stage.index = t.stage.index) ∨
    (out.sent = [] ∧ out.timing.stage.index = t.stage.index + 1 ∧
      ((out.done = [] ∧ (out.timing.records t.stage.index).dispatched = false) ∨
        ∃ done, out.done = [done] ∧ done.event = t.stage.index ∧ done.issued = t.stage.sentCount ∧
          (out.timing.records t.stage.index).dispatched = true))

/-- What holds behind a step of the timing thread. -/
structure AdvanceSpec (p : RunPlan) (t : Timing) (out : Advance) : Prop where
  inv : TimingInv p out.timing
  frames : FramesKept p out.timing.frameArena
  effect : Effect t out

section Steps

variable {p : RunPlan} {t : Timing}

/-! ## Moves without a send -/

/-- A step that only goes on to another place of its event. -/
theorem goto_spec (h : TimingInv p t) (hf : FramesKept p t.frameArena) {s : Stage}
    (hi : s.index = t.stage.index) (hsent : s.sentCount = t.stage.sentCount)
    (hbefore : s.before = t.stage.before)
    (hat : s.atEvent = true → t.stage.index < p.sched.events.length)
    (hstream : s.inStream = true → (p.ev t.stage.index).sendsRounds = true ∧
      (t.stage.inStream = true ∨ t.stage.sentCount = 0)) :
    AdvanceSpec p t { timing := { t with stage := s } } where
  inv := h.goto hi hsent hbefore hat hstream
  frames := hf
  effect := ⟨by simp, by simp, fun _ _ => rfl, .inl ⟨rfl, hi⟩⟩

theorem leave_spec (hp : Planned p) (h : TimingInv p t) (hf : FramesKept p t.frameArena)
    {record : SentRecord} (hactive : t.stage.before = false) (hat : t.stage.atEvent = true)
    (hr : record.requests = (t.records t.stage.index).requests ∧
      record.syndromes = (t.records t.stage.index).syndromes)
    (hdispatched : record.dispatched = (t.records t.stage.index).dispatched) (term : Int)
    (hasTerm : Bool) (abort : Option String) :
    AdvanceSpec p t
      { timing := { t with
          records := Function.update t.records t.stage.index record
          stage := .next (t.stage.index + 1) }
        done := [⟨t.stage.index, t.stage.sentCount, term, hasTerm⟩]
        abort := abort } where
  inv := h.leave hp hat hr
  frames := hf
  effect :=
    { wire := by simp
      sent := by simp
      records := fun j hj => Function.update_of_ne hj _ _
      next := .inr ⟨rfl, rfl, .inr ⟨_, rfl, rfl, rfl, by
        rw [← h.stage.dispatched hactive, ← hdispatched]
        exact congrArg SentRecord.dispatched (Function.update_self ..)⟩⟩ }

theorem endStream_spec (hp : Planned p) (h : TimingInv p t) (hf : FramesKept p t.frameArena)
    (hactive : t.stage.before = false) (hat : t.stage.atEvent = true) (term : StreamTerminate)
    (abort : Option String) :
    AdvanceSpec p t (endStream t t.stage.index t.stage.sentCount term abort) := by
  refine leave_spec hp h hf hactive hat ?_ ?_ _ _ _
  · exact ⟨rfl, rfl⟩
  · rfl

/-! ## Sends -/

theorem sendState_effect {i : Nat} (hi : i = t.stage.index) (bits : List Bool) (firstRound : Bool)
    (frames frame : List UInt8) {s : Stage} (hs : s.index = t.stage.index) :
    Effect t
      { timing := sendState t i bits firstRound frames frame s, sent := [⟨i, t.nRequests⟩] } where
  wire := by simp [sendState]
  sent := by simp [hi]
  records := fun j hj => Function.update_of_ne (hi ▸ hj) _ _
  next := .inl ⟨rfl, hs⟩

theorem sendPlanned_spec (hp : Planned p) (h : TimingInv p t) (hf : FramesKept p t.frameArena)
    {rp : RoundPlan} (hrp : rp ∈ p.ep t.stage.index) {bits : List Bool} {firstRound : Bool} {s : Stage}
    (hm : MaySend p t bits firstRound s)
    (hbits : requestFrame p.params (p.ev t.stage.index) (.ofNat t.nextRequestId) bits =
      requestFrame p.params (p.ev t.stage.index) (.ofNat t.nextRequestId)
        (slice p.sched.syndromeArena rp.bits)) :
    AdvanceSpec p t (sendPlanned t t.stage.index rp bits firstRound s) := by
  have hrid : t.nextRequestId < 2 ^ 32 := h.log.nextId ▸ u32_lt _
  have hsend : sendPlanned t t.stage.index rp bits firstRound s =
      { timing := sendState t t.stage.index bits firstRound
          (setRequestId t.frameArena rp.frameOffset t.nextRequestId)
          (slice (setRequestId t.frameArena rp.frameOffset t.nextRequestId) rp.frame) s
        sent := [⟨t.stage.index, t.nRequests⟩] } := rfl
  rw [hsend, hf.slice_setId hp hrp hrid, ← hbits]
  exact ⟨h.send hp hm _, hf.setId hp hrp hrid, sendState_effect rfl _ _ _ _ hm.index⟩

theorem sendBuilt_spec (hp : Planned p) (h : TimingInv p t) (hf : FramesKept p t.frameArena)
    {bits : List Bool} {firstRound : Bool} {s : Stage} (hm : MaySend p t bits firstRound s) :
    AdvanceSpec p t (sendBuilt t t.stage.index
      (requestFrame p.params (p.ev t.stage.index) 0 bits) bits firstRound s) := by
  have hrid : t.nextRequestId < 2 ^ 32 := h.log.nextId ▸ u32_lt _
  have hsend : sendBuilt t t.stage.index (requestFrame p.params (p.ev t.stage.index) 0 bits) bits
      firstRound s =
      { timing := sendState t t.stage.index bits firstRound t.frameArena
          (setRequestId (requestFrame p.params (p.ev t.stage.index) 0 bits) 0 t.nextRequestId) s
        sent := [⟨t.stage.index, t.nRequests⟩] } := rfl
  rw [hsend, setRequestId_requestFrame _ _ _ _ hrid]
  exact ⟨h.send hp hm _, hf, sendState_effect rfl _ _ _ _ hm.index⟩

/-! ## A round of a stream -/

/-- The round that a step of the timing thread is about to send: of its plan, or as it was drawn. -/
def roundAt (p : RunPlan) (aborted : Bool) (draw : Except String (List Bool)) (t : Timing) :
    Option (List Bool) :=
  match t.stage with
  | .streaming i rounds =>
    if aborted ∨ (p.ev i).streamMaxRounds ≤ rounds then none
    else if p.ep i ≠ [] then (p.ep i)[rounds]?.map fun rp => slice p.sched.syndromeArena rp.bits
    else
      match draw with
      | .ok bits => if bits = [] ∨ oversized p i bits then none else some bits
      | .error _ => none
  | _ => none

/-- 32 bits index what a step of the timing thread logs. -/
def Fits (p : RunPlan) (aborted : Bool) (draw : Except String (List Bool)) (t : Timing) : Prop :=
  ∀ bits ∈ roundAt p aborted draw t, Room t bits (t.stage.sentCount = 0)

instance (p : RunPlan) (aborted : Bool) (draw : Except String (List Bool)) (t : Timing) :
    Decidable (Fits p aborted draw t) :=
  inferInstanceAs (Decidable (∀ bits ∈ roundAt p aborted draw t, Room t bits (t.stage.sentCount = 0)))

theorem requestBound_of_sendsRounds {e : Event} (h : e.sendsRounds = true) (ep : EventPlan) :
    requestBound e ep = if ep = [] then e.streamMaxRounds else ep.length := by
  unfold requestBound
  split <;> simp_all [Event.sendsRounds]

theorem requestBound_of_single {e : Event} (h : e.sendsRounds = false) (ep : EventPlan) :
    requestBound e ep = 1 := by
  unfold requestBound
  split <;> simp_all [Event.sendsRounds]

theorem requestFrame_of_single {e : Event} (h : e.sendsRounds = false) (params : RunParams)
    (rid : UInt32) (bits bits' : List Bool) :
    requestFrame params e rid bits = requestFrame params e rid bits' := by
  unfold requestFrame
  split <;> simp_all [Event.sendsRounds]

/-- A round may be sent that the plan has counted. -/
theorem maySend_round (h : TimingInv p t) {i rounds : Nat} (hstage : t.stage = .streaming i rounds)
    (hbound : rounds < if p.ep i = [] then (p.ev i).streamMaxRounds else (p.ep i).length)
    {bits : List Bool} (hroom : Room t bits (rounds = 0)) :
    MaySend p t bits (rounds = 0) (afterRound (p.ev i) i (rounds + 1)) := by
  have hstreams := h.stage.streams
  rw [hstage] at hstreams
  have hsends : (p.ev i).sendsRounds = true := hstreams rfl
  have hafter : (afterRound (p.ev i) i (rounds + 1)).index = i ∧
      (afterRound (p.ev i) i (rounds + 1)).sentCount = rounds + 1 ∧
      (afterRound (p.ev i) i (rounds + 1)).before = false ∧
      (afterRound (p.ev i) i (rounds + 1)).inStream = true := by
    unfold afterRound
    split
    · exact ⟨rfl, rfl, rfl, rfl⟩
    · exact ⟨rfl, rfl, rfl, rfl⟩
  obtain ⟨hindex, hsent, hbefore, hin⟩ := hafter
  rw [← requestBound_of_sendsRounds hsends] at hbound
  refine ⟨?_, ?_, ?_, ?_, ?_, ?_, ?_, ?_, ?_, hroom⟩
  all_goals simp only [hstage, hindex, hsent, hbefore, hin]
  · rfl
  · rfl
  · rfl
  · exact ⟨rfl, trivial⟩
  · exact fun _ => hsends
  · intro _
    exact decide_eq_true_iff
  · exact fun _ => ⟨rfl, trivial⟩
  · exact nofun
  · exact hbound

theorem streamRound_spec (hp : Planned p) (h : TimingInv p t) (hf : FramesKept p t.frameArena)
    {i rounds : Nat} (hstage : t.stage = .streaming i rounds) {aborted : Bool}
    {draw : Except String (List Bool)}
    (hfits : Fits p aborted draw t) : AdvanceSpec p t (streamRound p aborted draw t i rounds) := by
  have hend : ∀ term abort, AdvanceSpec p t (endStream t i rounds term abort) := by
    have := fun term abort => endStream_spec hp h hf (by rw [hstage]; rfl) (by rw [hstage]; rfl) term abort
    rw [hstage] at this
    exact this
  simp only [Fits, roundAt, hstage, Stage.sentCount] at hfits
  unfold streamRound
  by_cases haborted : aborted = true
  · simp only [haborted, if_true]
    exact hend _ _
  by_cases hmax : (p.ev i).streamMaxRounds ≤ rounds
  · simp only [haborted, hmax, if_true]
    exact hend _ _
  simp only [haborted, hmax, or_self, Bool.false_eq_true, if_false] at hfits ⊢
  -- a stream of no planned requests draws its rounds from a source
  -- a stream of no planned requests draws its rounds from a source
  by_cases hep : p.ep i = []
  · simp only [hep, ne_eq, not_true_eq_false, if_false] at hfits ⊢
    cases draw with
    | error what => exact hend _ _
    | ok bits =>
      simp only at hfits ⊢
      split
      · exact hend _ _
      next hnonempty =>
      split
      · exact hend _ _
      · next hover =>
        have hroom := hfits bits (by simp [hnonempty, hover])
        have hm := maySend_round h hstage (by rw [if_pos hep]; omega) hroom
        have hi : i = t.stage.index := by rw [hstage]; rfl
        rw [hi] at hm ⊢
        exact sendBuilt_spec hp h hf hm
  · simp only [ne_eq, hep, not_false_eq_true, if_true] at hfits ⊢
    cases hrp : (p.ep i)[rounds]? with
    | none => exact hend _ _
    | some rp =>
      have hroom := hfits _ (by rw [hrp]; rfl)
      have hlt := (List.getElem?_eq_some_iff.mp hrp).1
      have hm := maySend_round h hstage (by rw [if_neg hep]; exact hlt) hroom
      have hi : i = t.stage.index := by rw [hstage]; rfl
      have hmem := List.mem_of_getElem? hrp
      rw [hi] at hm hmem ⊢
      exact sendPlanned_spec hp h hf hmem hm rfl

/-! ## Dispatching -/

/-- What is told behind the dispatch of an event is told of the state in front of it. -/
theorem Effect.of_enter {t₁ : Timing} {out : Advance} (h : Effect t₁ out) (hwire : t₁.wire = t.wire)
    (hindex : t₁.stage.index = t.stage.index) (hsent : t₁.stage.sentCount = t.stage.sentCount)
    (hrecords : ∀ j, j ≠ t.stage.index → t₁.records j = t.records j) : Effect t out where
  wire := hwire ▸ h.wire
  sent := hindex ▸ h.sent
  records := fun j hj => (h.records j (hindex ▸ hj)).trans (hrecords j hj)
  next := by
    have := h.next
    rwa [hindex, hsent] at this

theorem dispatchEvent_spec (hp : Planned p) (h : TimingInv p t) (hf : FramesKept p t.frameArena)
    {i : Nat} (hstage : t.stage = .waiting i) : AdvanceSpec p t (dispatchEvent p t i) := by
  have henter := h.enter hstage
  have hrange : i < p.sched.events.length := by
    have := h.stage.inRange
    rw [hstage] at this
    exact this rfl
  generalize ht₁ : ({ t with
    records := Function.update t.records i { t.records i with dispatched := true }
    stage := .failed i 0 } : Timing) = t₁ at henter
  have hstage₁ : t₁.stage = .failed i 0 := by rw [← ht₁]
  have hf₁ : FramesKept p t₁.frameArena := by
    rw [← ht₁]
    exact hf
  -- what is shown of the event marked as dispatched is shown of the state before
  have hof : ∀ out, AdvanceSpec p t₁ out → AdvanceSpec p t out := by
    intro out hout
    refine ⟨hout.inv, hout.frames, hout.effect.of_enter ?_ ?_ ?_ fun j hj => ?_⟩
    · rw [← ht₁]
    · rw [hstage₁, hstage]
      rfl
    · rw [hstage₁, hstage]
      rfl
    · rw [← ht₁]
      rw [hstage] at hj
      exact Function.update_of_ne hj _ _
  -- an operation of one request sends it now, from an empty record
  have hsingle : (p.ev i).sendsRounds = false → ∃ rp, p.ep i = [rp] ∧
      AdvanceSpec p t (sendPlanned { t with
        records := Function.update t.records i { t.records i with dispatched := true } } i rp []
        false (.sent i)) := by
    intro hsends
    obtain ⟨rp, hep⟩ := List.length_eq_one_iff.mp (hp.single i hrange hsends)
    refine ⟨rp, hep, ?_⟩
    have hsend : sendPlanned { t with
        records := Function.update t.records i { t.records i with dispatched := true } } i rp []
        false (.sent i) = sendPlanned t₁ t₁.stage.index rp [] false (.sent i) := by
      rw [← ht₁]
      rfl
    have hm : MaySend p t₁ [] false (.sent i) := by
      have hcount := henter.syndromes_eq_zero (by rw [hstage₁]; rfl)
      have hroom : Room t₁ [] false := by
        refine ⟨by simp, ?_⟩
        simp only [SentRecord.syndromes] at hcount
        rw [hcount]
        decide
      refine ⟨?_, ?_, ?_, ?_, fun hin => (by cases hin), fun hin => (by cases hin), ?_,
        fun _ => ⟨rfl, rfl⟩, ?_, hroom⟩
      all_goals rw [hstage₁]
      · rfl
      · rfl
      · rfl
      · exact ⟨rfl, rfl⟩
      · exact fun hpos => absurd hpos (Nat.lt_irrefl 0)
      · exact (requestBound_of_single hsends _).symm ▸ Nat.zero_lt_one
    have hrp : rp ∈ p.ep t₁.stage.index := by
      rw [hstage₁]
      exact hep ▸ List.mem_singleton_self rp
    have hsends₁ : (p.ev t₁.stage.index).sendsRounds = false := by
      rw [hstage₁]
      exact hsends
    rw [hsend]
    exact hof _ (sendPlanned_spec hp henter hf₁ hrp hm (requestFrame_of_single hsends₁ _ _ _ _))
  -- one that sends rounds only moves to the state that streams them
  have hstream : (p.ev i).sendsRounds = true → AdvanceSpec p t
      { timing := { t with
          records := Function.update t.records i { t.records i with dispatched := true }
          stage := if p.ep i = [] ∧ p.sources (p.ev i).sourceId = false then .failed i 0
            else .streaming i 0 } } := by
    intro hsends
    have hgoto : ∀ s : Stage, s.index = i → s.sentCount = 0 → s.before = false →
        AdvanceSpec p t₁ { timing := { t₁ with stage := s } } := fun s hi hsent hbefore => by
      refine goto_spec henter hf₁ ?_ ?_ ?_ ?_ ?_
      all_goals rw [hstage₁]
      · exact hi
      · exact hsent
      · exact hbefore
      · exact fun _ => hrange
      · exact fun _ => ⟨hsends, .inr rfl⟩
    have hspec := fun s hi hsent hbefore => hof _ (hgoto s hi hsent hbefore)
    rw [← ht₁] at hspec
    split
    · exact hspec _ rfl rfl rfl
    · exact hspec _ rfl rfl rfl
  unfold dispatchEvent
  cases hop : (p.ev i).op with
  | reset =>
    obtain ⟨rp, hep, hspec⟩ := hsingle (by simp [Event.sendsRounds, hop])
    simp only [hop, hep]
    exact hspec
  | getCorrections =>
    obtain ⟨rp, hep, hspec⟩ := hsingle (by simp [Event.sendsRounds, hop])
    simp only [hop, hep]
    exact hspec
  | getLogicalMeasurements =>
    obtain ⟨rp, hep, hspec⟩ := hsingle (by simp [Event.sendsRounds, hop])
    simp only [hop, hep]
    exact hspec
  | stream =>
    simp only [hop]
    exact hstream (by simp [Event.sendsRounds, hop])
  | enqueueData =>
    simp only [hop]
    exact hstream (by simp [Event.sendsRounds, hop])

/-- An event that an abort finds waiting is not dispatched. -/
theorem skip_spec (hp : Planned p) (h : TimingInv p t) (hf : FramesKept p t.frameArena) {i : Nat}
    (hstage : t.stage = .waiting i) :
    AdvanceSpec p t { timing := { t with stage := .next (i + 1) } } := by
  have hleave := @TimingInv.leave p t hp h (t.records t.stage.index) (by rw [hstage]; rfl) ⟨rfl, rfl⟩
  have hfresh := h.stage.fresh
  rw [Function.update_eq_self] at hleave
  rw [hstage] at hleave hfresh
  have hrecord : t.records i = {} := hfresh rfl
  refine ⟨hleave, hf, by simp, by simp, fun _ _ => rfl, .inr ⟨rfl, ?_, .inl ⟨rfl, ?_⟩⟩⟩
  · rw [hstage]
    rfl
  · rw [hstage]
    exact congrArg SentRecord.dispatched hrecord

/-- Every step of the timing thread. -/
theorem advance_spec (hp : Planned p) (h : TimingInv p t) (hf : FramesKept p t.frameArena)
    {aborted : Bool} {raised : Nat → Bool} {draw : Except String (List Bool)} {out : Advance}
    (hfits : Fits p aborted draw t)
    (ha : advance p aborted raised draw t = some out) : AdvanceSpec p t out := by
  unfold advance at ha
  cases hstage : t.stage with
  | next i =>
    simp only [hstage, Option.some.injEq] at ha
    subst ha
    have hgoto : ∀ s : Stage, s.index = i → s.sentCount = 0 → s.before = true →
        (s.atEvent = true → i < p.sched.events.length) → s.inStream = false →
        AdvanceSpec p t { timing := { t with stage := s } } := by
      intro s hi hsent hbefore hat hin
      refine goto_spec h hf ?_ ?_ ?_ ?_ (fun hs => by simp [hin] at hs)
      all_goals rw [hstage]
      · exact hi
      · exact hsent
      · exact hbefore
      · exact hat
    split
    · exact hgoto _ rfl rfl rfl nofun rfl
    · next hgo => exact hgoto _ rfl rfl rfl (fun _ => by omega) rfl
  | waiting i =>
    simp only [hstage] at ha
    split at ha
    · obtain rfl := Option.some.inj ha
      split
      · exact skip_spec hp h hf hstage
      · refine goto_spec h hf ?_ ?_ ?_ ?_ nofun
        all_goals rw [hstage]
        have := h.stage.inRange
        rw [hstage] at this
        exact this
    · exact Option.some.inj ha ▸ dispatchEvent_spec hp h hf hstage
  -- an event of one request has nothing left to send
  | sent i =>
    simp only [hstage, Option.some.injEq] at ha
    subst ha
    have hleave := leave_spec hp h hf (by rw [hstage]; rfl) (by rw [hstage]; rfl) ⟨rfl, rfl⟩ rfl 0 false
      none
    rw [Function.update_eq_self, hstage] at hleave
    exact hleave
  | streaming i rounds =>
    simp only [hstage, Option.some.injEq] at ha
    exact ha ▸ streamRound_spec hp h hf hstage hfits
  -- either the stream ends here or the next round is sent
  | deciding i rounds =>
    simp only [hstage] at ha
    have hend : ∀ term abort, AdvanceSpec p t (endStream t i rounds term abort) := by
      have := fun term abort => endStream_spec hp h hf (by rw [hstage]; rfl) (by rw [hstage]; rfl) term
        abort
      rw [hstage] at this
      exact this
    have hrange := h.stage.inRange
    have hstreams := h.stage.streams
    rw [hstage] at hrange hstreams
    have hgoto : ∀ s : Stage, s.index = i → s.sentCount = rounds → s.before = false →
        AdvanceSpec p t { timing := { t with stage := s } } := by
      intro s hi hsent hbefore
      refine goto_spec h hf ?_ ?_ ?_ ?_ ?_
      all_goals rw [hstage]
      · exact hi
      · exact hsent
      · exact hbefore
      · exact fun _ => hrange rfl
      · exact fun _ => ⟨hstreams rfl, .inl rfl⟩
    split at ha
    · exact Option.some.inj ha ▸ hend _ _
    split at ha
    · exact Option.some.inj ha ▸ hgoto _ rfl rfl rfl
    split at ha
    · exact Option.some.inj ha ▸ hend _ _
    · exact Option.some.inj ha ▸ hgoto _ rfl rfl rfl
  | finished i => simp [hstage] at ha
  | failed i rounds => simp [hstage] at ha

end Steps

end CudaqQec.Playback
