import CudaqQec.Playback.Emulator

/-!
# What a plan holds

Every planned round is the frame of its event for the bits that its slice of the syndrome arena holds, and
the frames lie apart in their arena (`Planned`), as long as 32 bits reach where each of them starts
(`Addressed`). What a run can request is counted exactly.
-/

namespace CudaqQec.Playback

open Checked Arena

def RoundPlan.frame (rp : RoundPlan) : Nat × Nat := (rp.frameOffset, rp.frameLen)

def RoundPlan.bits (rp : RoundPlan) : Nat × Nat := (rp.bitsOffset, rp.bitsCount)

def Event.sendsRounds (e : Event) : Bool := e.op = .stream ∨ e.op = .enqueueData

/-! ## Frames -/

theorem length_headerBytes (functionId argLen requestId : UInt32) (ptpTimestamp : UInt64) :
    (Realtime.headerBytes functionId argLen requestId ptpTimestamp).length = 24 := by
  simp [Realtime.headerBytes]

/-- Every frame is a header, which alone has the request's id, and a body. -/
theorem buildFrame_eq (functionId : UInt32) (payload : List UInt8) (bits : Option (List UInt8)) :
    ∃ argLen body, ∀ rid, Realtime.buildFrame functionId rid payload bits =
      Realtime.headerBytes functionId argLen rid 0 ++ body := by
  cases bits with
  | none => exact ⟨.ofNat (payload.length + 0), payload, fun rid => rfl⟩
  | some bits =>
    refine ⟨.ofNat (payload.length + Realtime.bitPackedBytes bits.length),
      Realtime.appendPackedBits payload bits, fun rid => ?_⟩
    simp only [Realtime.buildFrame, Realtime.appendPackedBits, List.append_assoc]

theorem requestFrame_eq (params : RunParams) (e : Event) (bits : List Bool) :
    ∃ functionId argLen body, ∀ rid, requestFrame params e rid bits =
      Realtime.headerBytes functionId argLen rid 0 ++ body := by
  have hread : ∃ functionId argLen body, ∀ rid,
      Realtime.buildReadFrame e.wire (.ofNat (returnSizeFor e)) rid =
        Realtime.headerBytes functionId argLen rid 0 ++ body := by
    by_cases h : e.wire.op = .getCorrections
    · simp only [Realtime.buildReadFrame, h, if_true]
      exact ⟨_, buildFrame_eq _ _ _⟩
    · simp only [Realtime.buildReadFrame, h, if_false]
      exact ⟨_, buildFrame_eq _ _ _⟩
  unfold requestFrame
  split
  · exact ⟨_, buildFrame_eq _ _ _⟩
  · exact hread
  · exact hread
  · exact ⟨_, buildFrame_eq _ _ _⟩
  · exact ⟨_, buildFrame_eq _ _ _⟩

theorem le_length_requestFrame (params : RunParams) (e : Event) (rid : UInt32) (bits : List Bool) :
    24 ≤ (requestFrame params e rid bits).length := by
  obtain ⟨functionId, argLen, body, h⟩ := requestFrame_eq params e bits
  rw [h, List.length_append, length_headerBytes]
  omega

/-- `set_request_id` makes a frame that of another request. -/
theorem setRequestId_requestFrame (params : RunParams) (e : Event) (bits : List Bool) (rid : UInt32)
    {rid' : Nat} (h : rid' < 2 ^ 32) :
    setRequestId (requestFrame params e rid bits) 0 rid' =
      requestFrame params e (.ofNat rid') bits := by
  obtain ⟨functionId, argLen, body, hframe⟩ := requestFrame_eq params e bits
  rw [hframe, hframe]
  -- The id stands behind three words of the header.
  have hsplit : ∀ r : UInt32, Realtime.headerBytes functionId argLen r 0 ++ body =
      (Realtime.bytesOf 4 Realtime.rpcMagicRequest ++ (Realtime.bytesOf 4 functionId.toNat ++
        Realtime.bytesOf 4 argLen.toNat)) ++ (Realtime.bytesOf 4 r.toNat ++
          (Realtime.bytesOf 8 (0 : UInt64).toNat ++ body)) := by
    intro r
    simp only [Realtime.headerBytes, List.append_assoc]
  have hat : 0 + 12 = (Realtime.bytesOf 4 Realtime.rpcMagicRequest ++
      (Realtime.bytesOf 4 functionId.toNat ++ Realtime.bytesOf 4 argLen.toNat)).length := by simp
  rw [hsplit, hsplit, setRequestId, hat, overwrite_append _ _ (by simp), UInt32.toNat_ofNat',
    Nat.mod_eq_of_lt h]

/-- Events that differ in their slice of the syndrome arena have the same frames. -/
theorem requestFrame_syndromes (params : RunParams) (e : Event) (offset count : Nat) (rid : UInt32)
    (bits : List Bool) :
    requestFrame params { e with syndromeOffset := offset, syndromeCount := count } rid bits =
      requestFrame params e rid bits := rfl

/-! ## Rounds in the arena -/

/-- A planned round is the frame of its event for the bits it names. -/
structure Ready (params : RunParams) (frames : List UInt8) (syndromes : List Bool) (e : Event)
    (rp : RoundPlan) : Prop where
  inside : rp.frame.1 + rp.frame.2 ≤ frames.length
  header : 24 ≤ rp.frame.2
  bits : rp.bits.1 + rp.bits.2 ≤ syndromes.length
  content : slice frames rp.frame = requestFrame params e 0 (slice syndromes rp.bits)

theorem Ready.mono {params : RunParams} {frames frames' : List UInt8} {syndromes syndromes' : List Bool}
    {e e' : Event} {rp : RoundPlan} (h : Ready params frames syndromes e rp) (hf : frames <+: frames')
    (hs : syndromes <+: syndromes')
    (he : ∀ bits, requestFrame params e 0 bits = requestFrame params e' 0 bits) :
    Ready params frames' syndromes' e' rp where
  inside := h.inside.trans hf.length_le
  header := h.header
  bits := h.bits.trans hs.length_le
  content := by
    rw [slice_of_grown h.inside hf, slice_of_grown h.bits hs, ← he]
    exact h.content

/-- 32 bits reach where the last frame of an arena starts, which is the farthest. -/
def Addressed (frames : List UInt8) (rounds : EventPlan) : Prop :=
  frames.length < 2 ^ 32 + (rounds.getLast?.map RoundPlan.frameLen).getD 0

/-- The rounds of an event behind those of the events before it, if 32 bits reach them. -/
def Placed (params : RunParams) (start : List UInt8) (before : EventPlan) (syndromes : List Bool)
    (e : Event) (p : Placing) : Prop :=
  Addressed p.frames (before ++ p.plan) → Addressed start before ∧
    Laid p.frames ((before ++ p.plan).map RoundPlan.frame) ∧
    ∀ rp ∈ p.plan, Ready params p.frames syndromes e rp

theorem Placed.mono {params : RunParams} {start : List UInt8} {before : EventPlan}
    {syndromes syndromes' : List Bool} {e e' : Event} {p : Placing}
    (h : Placed params start before syndromes e p) (hs : syndromes <+: syndromes')
    (he : ∀ bits, requestFrame params e 0 bits = requestFrame params e' 0 bits) :
    Placed params start before syndromes' e' p := by
  intro hfit
  obtain ⟨hstart, hlaid, hready⟩ := h hfit
  exact ⟨hstart, hlaid, fun rp hrp => (hready rp hrp).mono List.prefix_rfl hs he⟩

section Placing

variable {params : RunParams} {syndromes : List Bool} {i limit n : Nat} {e : Event} {p p' : Placing}

theorem Addressed.last {frames bytes : List UInt8} {rounds : EventPlan} {bits : Nat × Nat}
    (h : Addressed (frames ++ bytes)
      (rounds ++ [⟨u32 frames.length, u32 bytes.length, bits.1, bits.2⟩])) :
    frames.length < 2 ^ 32 ∧ bytes.length < 2 ^ 32 := by
  simp only [Addressed, List.getLast?_append, List.getLast?_singleton, Option.some_or,
    Option.map_some, Option.getD_some, List.length_append] at h
  have := u32_le bytes.length
  refine ⟨by omega, ?_⟩
  by_contra hlarge
  unfold u32 at h
  omega

theorem place_grows {bits : Nat × Nat} (hbits : bits.1 + bits.2 ≤ syndromes.length)
    (h : place i e limit (requestFrame params e 0 (slice syndromes bits)) bits.1 bits.2 p = .ok p') :
    p.frames <+: p'.frames ∧ p'.plan.length = p.plan.length + 1 ∧
      ∀ start before,
        Placed params start before syndromes e p → Placed params start before syndromes e p' := by
  simp only [place, bind_eq_ok, throwIf_eq_ok] at h
  obtain ⟨-, -, h⟩ := h
  obtain rfl := Except.ok.inj h
  refine ⟨List.prefix_append _ _, by simp, fun start before hp hfit => ?_⟩
  rw [← List.append_assoc] at hfit
  obtain ⟨hframes, hbytes⟩ := hfit.last
  obtain ⟨hstart, hlaid, hready⟩ := hp (hframes.trans_le (Nat.le_add_right _ _))
  rw [u32_of_lt hframes, u32_of_lt hbytes]
  refine ⟨hstart, ?_, fun rp hrp => ?_⟩
  · rw [← List.append_assoc, List.map_append]
    exact hlaid.append (List.prefix_append _ _) slot_append
  · rcases List.mem_append.mp hrp with hrp | hrp
    · exact (hready rp hrp).mono (List.prefix_append _ _) List.prefix_rfl fun _ => rfl
    · obtain rfl := List.mem_singleton.mp hrp
      exact
        { inside := by simp [RoundPlan.frame]
          header := le_length_requestFrame ..
          bits := hbits
          content := slice_append_self }

theorem placeLiteral_grows (h : placeLiteral params i e limit syndromes n p = .ok p') :
    p.frames <+: p'.frames ∧
      ∀ start before,
        Placed params start before syndromes e p → Placed params start before syndromes e p' := by
  induction n generalizing p with
  | zero =>
    obtain rfl := Except.ok.inj h
    exact ⟨List.prefix_rfl, fun _ _ hp => hp⟩
  | succ n ih =>
    simp only [placeLiteral, bind_eq_ok, throwIf_eq_ok, not_lt] at h
    obtain ⟨-, hinside, p₁, hplace, h⟩ := h
    obtain ⟨hgrows, -, hp₁⟩ := place_grows hinside hplace
    obtain ⟨hgrows', hp'⟩ := ih h
    exact ⟨hgrows.trans hgrows', fun start before hp => hp' start before (hp₁ start before hp)⟩

/-! ## Rounds that are drawn -/

/-- Rounds drawn ahead of time: the event changes in nothing but its slice of the arena. -/
theorem drawRounds_grows {σ : Type} {sources : Sources σ} {first : Bool} {d d' : Drawing σ}
    (h : drawRounds params sources i limit n first d = .ok d') :
    d.placing.frames <+: d'.placing.frames ∧ d.syndromes <+: d'.syndromes ∧
      (∃ offset count, d'.e = { d.e with syndromeOffset := offset, syndromeCount := count }) ∧
      ∀ start before, Placed params start before d.syndromes d.e d.placing →
        Placed params start before d'.syndromes d'.e d'.placing := by
  induction n generalizing first d with
  | zero =>
    obtain rfl := Except.ok.inj h
    exact ⟨List.prefix_rfl, List.prefix_rfl, ⟨_, _, rfl⟩, fun _ _ hp => hp⟩
  | succ n ih =>
    simp only [drawRounds, bind_eq_ok] at h
    obtain ⟨⟨round, state⟩, -, h⟩ := h
    split at h
    · obtain rfl := Except.ok.inj h
      exact ⟨List.prefix_rfl, List.prefix_rfl, ⟨_, _, rfl⟩, fun _ _ hp => hp⟩
    · simp only [bind_eq_ok] at h
      obtain ⟨placing, hplace, h⟩ := h
      generalize he : (if first = true then { d.e with
        syndromeOffset := u32 d.syndromes.length, syndromeCount := u32 round.length } else d.e) = e
        at hplace h
      -- only the first round moves the start of the event's slice
      have hsame : ∃ offset count,
          e = { d.e with syndromeOffset := offset, syndromeCount := count } := by
        rw [← he]
        split
        · exact ⟨_, _, rfl⟩
        · exact ⟨_, _, rfl⟩
      obtain ⟨offset, count, rfl⟩ := hsame
      have hinside : u32 d.syndromes.length + u32 round.length ≤ (d.syndromes ++ round).length := by
        have := u32_le d.syndromes.length
        have := u32_le round.length
        rw [List.length_append]
        omega
      obtain ⟨hgrows, -, hp₁⟩ := place_grows hinside hplace
      obtain ⟨hgrows', hsyndromes, ⟨offset', count', he'⟩, hp'⟩ := ih h
      refine ⟨hgrows.trans hgrows', (List.prefix_append _ _).trans hsyndromes, ⟨offset', count', he'⟩,
        fun start before hp => hp' start before (hp₁ start before ?_)⟩
      exact hp.mono (List.prefix_append _ _) fun bits => (requestFrame_syndromes ..).symm

end Placing

/-! ## The plan -/

/-- What planning one event adds. -/
structure Plans {σ : Type} (params : RunParams) (st st' : PlanState σ) (e : Event) (ep : EventPlan) :
    Prop where
  events : st'.events = st.events ++ [e]
  plans : st'.plans = st.plans ++ [ep]
  frames : st.frames <+: st'.frames
  syndromes : st.syndromes <+: st'.syndromes
  single : e.sendsRounds = false → ep.length = 1
  placed : (Addressed st.frames st.plans.flatten →
      Laid st.frames (st.plans.flatten.map RoundPlan.frame)) →
    Placed params st.frames st.plans.flatten st'.syndromes e ⟨st'.frames, ep⟩

section Plan

variable {σ : Type} {params : RunParams} {sources : Sources σ} {i limit : Nat} {e : Event}
  {st st' : PlanState σ}

/-- Nothing is placed yet for an event. -/
theorem placed_nil
    (h : Addressed st.frames st.plans.flatten →
      Laid st.frames (st.plans.flatten.map RoundPlan.frame)) :
    Placed params st.frames st.plans.flatten st.syndromes e ⟨st.frames, []⟩ := by
  intro hfit
  rw [List.append_nil] at hfit
  exact ⟨hfit, by simpa using h hfit, by simp⟩

theorem planSingle_plans (h : planSingle params i limit e st = .ok st') :
    ∃ ep, Plans params st st' e ep := by
  simp only [planSingle, bind_eq_ok] at h
  obtain ⟨p, hplace, h⟩ := h
  obtain rfl := Except.ok.inj h
  have hnone : ([] : List Bool) = slice st.syndromes (0, 0) := by simp [slice]
  rw [hnone] at hplace
  obtain ⟨hgrows, hlen, hplaced⟩ := place_grows (Nat.zero_le _) hplace
  exact ⟨p.plan, rfl, rfl, hgrows, List.prefix_rfl, fun _ => hlen,
    fun hlaid => hplaced _ _ (placed_nil hlaid)⟩

/-! ## One event -/

theorem planRounds_plans (hsend : e.sendsRounds = true)
    (h : planRounds params sources i limit e st = .ok st') : ∃ e' ep, Plans params st st' e' ep ∧
      ∃ offset count, e' = { e with syndromeOffset := offset, syndromeCount := count } := by
  unfold planRounds at h
  split at h
  · simp only [bind_eq_ok] at h
    obtain ⟨p, hplace, h⟩ := h
    obtain rfl := Except.ok.inj h
    obtain ⟨hgrows, hplaced⟩ := placeLiteral_grows hplace
    exact ⟨e, p.plan, ⟨rfl, rfl, hgrows, List.prefix_rfl, by simp [hsend],
      fun hlaid => hplaced _ _ (placed_nil hlaid)⟩, _, _, rfl⟩
  split at h
  · obtain rfl := Except.ok.inj h
    exact ⟨e, [], ⟨rfl, rfl, List.prefix_rfl, List.prefix_rfl, by simp [hsend],
      fun hlaid => placed_nil hlaid⟩, _, _, rfl⟩
  · simp only [bind_eq_ok] at h
    obtain ⟨d, hdraw, h⟩ := h
    obtain rfl := Except.ok.inj h
    obtain ⟨hgrows, hsyndromes, ⟨offset, count, he⟩, hplaced⟩ := drawRounds_grows hdraw
    refine ⟨d.e, d.placing.plan, ⟨rfl, rfl, hgrows, hsyndromes, ?_,
      fun hlaid => hplaced _ _ (placed_nil hlaid)⟩, offset, count, he⟩
    have hsend' : d.e.sendsRounds = true := by
      rw [he]
      exact hsend
    simp [hsend']

theorem planEvent_plans {router : Nat → Option Session} {ev : Event × Nat}
    (h : planEvent params router sources st ev = .ok st') : ∃ e ep, Plans params st st' e ep := by
  obtain ⟨e, i⟩ := ev
  unfold planEvent at h
  cases hop : e.op with
  | reset =>
    simp only [hop] at h
    obtain ⟨ep, hplans⟩ := planSingle_plans h
    exact ⟨e, ep, hplans⟩
  | getCorrections =>
    simp only [hop, bind_eq_ok, throwIf_eq_ok] at h
    obtain ⟨-, -, h⟩ := h
    obtain ⟨ep, hplans⟩ := planSingle_plans h
    exact ⟨e, ep, hplans⟩
  | getLogicalMeasurements =>
    simp only [hop, bind_eq_ok, throwIf_eq_ok] at h
    obtain ⟨-, -, h⟩ := h
    obtain ⟨ep, hplans⟩ := planSingle_plans h
    exact ⟨e, ep, hplans⟩
  | stream =>
    simp only [hop] at h
    obtain ⟨e', ep, hplans, -⟩ := planRounds_plans (by simp [Event.sendsRounds, hop]) h
    exact ⟨e', ep, hplans⟩
  | enqueueData =>
    simp only [hop] at h
    obtain ⟨e', ep, hplans, -⟩ := planRounds_plans (by simp [Event.sendsRounds, hop]) h
    exact ⟨e', ep, hplans⟩

/-- What the events planned so far have left. -/
structure PlannedSoFar (params : RunParams) (st : PlanState σ) : Prop where
  lengths : st.events.length = st.plans.length
  single : ∀ x ∈ st.events.zip st.plans, x.1.sendsRounds = false → x.2.length = 1
  laid : Addressed st.frames st.plans.flatten →
    Laid st.frames (st.plans.flatten.map RoundPlan.frame)
  ready : Addressed st.frames st.plans.flatten → ∀ x ∈ st.events.zip st.plans, ∀ rp ∈ x.2,
    Ready params st.frames st.syndromes x.1 rp

theorem PlannedSoFar.append {ep : EventPlan} (h : PlannedSoFar params st)
    (hp : Plans params st st' e ep) : PlannedSoFar params st' := by
  have hzip : st'.events.zip st'.plans = st.events.zip st.plans ++ [(e, ep)] := by
    rw [hp.events, hp.plans, List.zip_append h.lengths]
    rfl
  have hflatten : st'.plans.flatten = st.plans.flatten ++ ep := by
    rw [hp.plans, List.flatten_append, List.flatten_singleton]
  have hplaced := hp.placed h.laid
  simp only [Placed, ← hflatten] at hplaced
  refine ⟨?_, fun x hx hsend => ?_, fun hfit => ?_, fun hfit x hx rp hrp => ?_⟩
  · simp [hp.events, hp.plans, h.lengths]
  · rw [hzip] at hx
    rcases List.mem_append.mp hx with hx | hx
    · exact h.single x hx hsend
    · obtain rfl := List.mem_singleton.mp hx
      exact hp.single hsend
  · exact (hplaced hfit).2.1
  · obtain ⟨hstart, -, hready⟩ := hplaced hfit
    rw [hzip] at hx
    rcases List.mem_append.mp hx with hx | hx
    · exact (h.ready hstart x hx rp hrp).mono hp.frames hp.syndromes fun _ => rfl
    · obtain rfl := List.mem_singleton.mp hx
      exact hready rp hrp

end Plan

/-- What a run finds in its plan. -/
structure Planned (p : RunPlan) : Prop where
  lengths : p.sched.events.length = p.eventPlans.length
  single : ∀ i < p.sched.events.length, (p.ev i).sendsRounds = false → (p.ep i).length = 1
  laid : Laid p.frameArena (p.eventPlans.flatten.map RoundPlan.frame)
  ready : ∀ i, ∀ rp ∈ p.ep i, Ready p.params p.frameArena p.sched.syndromeArena (p.ev i) rp
  requests : (List.zipWith requestBound p.sched.events p.eventPlans).sum = p.maxRequests
  counted : p.maxRequests < 2 ^ 32

theorem plan_planned {σ : Type} {sched : Schedule} {router : Nat → Option Session}
    {sources : Sources σ} {params : RunParams} {state state' : σ} {p : RunPlan}
    (h : plan sched router sources params state = .ok (p, state'))
    (hfit : Addressed p.frameArena p.eventPlans.flatten) : Planned p := by
  simp only [plan, bind_eq_ok, throwIf_eq_ok, not_lt] at h
  obtain ⟨_, -, _, -, st, hfold, _, -, -, htotal, h⟩ := h
  obtain ⟨rfl, rfl⟩ := Prod.mk.inj (Except.ok.inj h)
  have hst : PlannedSoFar params st := by
    refine foldlM_invariant ?_ (fun st ev st' hst hev => ?_) hfold
    · exact ⟨rfl, by simp, fun _ => laid_nil _, by simp⟩
    · obtain ⟨e, ep, hplans⟩ := planEvent_plans hev
      exact hst.append hplans
  have hmem : ∀ i < st.events.length, (st.events.getD i {}, st.plans.getD i []) ∈
      st.events.zip st.plans := by
    intro i hi
    have hi' : i < st.plans.length := hst.lengths ▸ hi
    rw [List.getD_eq_getElem _ _ hi, List.getD_eq_getElem _ _ hi']
    exact List.mem_iff_getElem.mpr ⟨i, by simp [hi, hi'], by simp⟩
  have hsmall : (List.zipWith requestBound st.events st.plans).sum < 2 ^ 32 := by
    unfold uint32Max at htotal
    omega
  refine ⟨hst.lengths, fun i hi hsend => hst.single _ (hmem i hi) hsend, hst.laid hfit,
    fun i rp hrp => ?_, (u32_of_lt hsmall).symm, u32_lt _⟩
  have hi : i < st.plans.length := by
    by_contra hge
    rw [RunPlan.ep, List.getD_eq_default _ _ (Nat.le_of_not_lt hge)] at hrp
    simp at hrp
  exact hst.ready hfit _ (hmem i (hst.lengths ▸ hi)) rp hrp

end CudaqQec.Playback
