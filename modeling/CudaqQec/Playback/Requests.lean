import CudaqQec.Playback.Planned

/-!
# The requests of a run

`TimingInv`: what the timing thread has sent and what it has logged of it agree. The slices of an event's
record hold the ids of its requests, in the order they were sent, and the bits that went with them
(`Logged`); they lie apart, and the plan has counted the requests.

A send is the one step that adds to the logs (`Sends`); every other step only goes on to another place.
-/

namespace CudaqQec.Playback

open Checked Arena

def wireOf (t : Timing) (i : Nat) : List Sent := t.wire.filter (·.tag.event = i)

def SentRecord.requests (r : SentRecord) : Nat × Nat := (r.requestIdOffset, r.requestIdCount)

def SentRecord.syndromes (r : SentRecord) : Nat × Nat := (r.syndromeOffset, r.syndromeCount)

def idsIn (log : Nat → Nat) (s : Nat × Nat) : List Nat := (List.range' s.1 s.2).map log

/-- The slices of an event's record hold its requests and the bits it sent. -/
structure Logged (p : RunPlan) (t : Timing) (i : Nat) : Prop where
  count : (t.records i).requests.2 = (wireOf t i).length
  indices : (wireOf t i).map (·.tag.logIndex) =
    List.range' (t.records i).requests.1 (t.records i).requests.2
  content : ∃ rounds : List (List Bool), rounds.length = (wireOf t i).length ∧
    (wireOf t i).map Sent.frame = List.zipWith
      (fun rid bits => requestFrame p.params (p.ev i) (.ofNat rid) bits)
      (idsIn t.requestIdLog (t.records i).requests) rounds ∧
    slice t.syndromeLog (t.records i).syndromes = rounds.flatten

/-! ## Stages -/

def Stage.sentCount : Stage → Nat
  | .sent _ => 1
  | .streaming _ rounds | .deciding _ rounds | .failed _ rounds => rounds
  | .next _ | .waiting _ | .finished _ => 0

def Stage.before : Stage → Bool
  | .next _ | .waiting _ | .finished _ => true
  | .sent _ | .streaming _ _ | .deciding _ _ | .failed _ _ => false

def Stage.atEvent : Stage → Bool
  | .waiting _ | .sent _ | .streaming _ _ | .deciding _ _ | .failed _ _ => true
  | .next _ | .finished _ => false

def Stage.inStream : Stage → Bool
  | .streaming _ _ | .deciding _ _ => true
  | .next _ | .waiting _ | .finished _ | .sent _ | .failed _ _ => false

def bounds (p : RunPlan) : List Nat := List.zipWith requestBound p.sched.events p.eventPlans

/-! ## The invariants -/

/-- What has been logged, whatever the stage. -/
structure LogInv (p : RunPlan) (t : Timing) : Prop where
  nextId : t.nextRequestId = u32 (t.nRequests + 1)
  total : t.nRequests = t.wire.length
  logged : ∀ j, Logged p t j
  inside : ∀ j, (t.records j).requests.1 + (t.records j).requests.2 ≤ t.nRequests ∧
    (t.records j).syndromes.1 + (t.records j).syndromes.2 ≤ t.syndromeLog.length
  apart : ∀ i j, i < j → Apart (t.records i).requests (t.records j).requests ∧
    Apart (t.records i).syndromes (t.records j).syndromes

/-- What a stage says of the event at hand, and of those behind it. -/
structure StageInv (p : RunPlan) (t : Timing) : Prop where
  current : (wireOf t t.stage.index).length = t.stage.sentCount
  future : ∀ j, t.stage.index < j → t.records j = {} ∧ wireOf t j = []
  fresh : t.stage.before = true → t.records t.stage.index = {}
  inRange : t.stage.atEvent = true → t.stage.index < p.sched.events.length
  dispatched : t.stage.before = false → (t.records t.stage.index).dispatched = true
  streams : t.stage.inStream = true → (p.ev t.stage.index).sendsRounds = true
  bound : t.stage.sentCount ≤ requestBound (p.ev t.stage.index) (p.ep t.stage.index)
  budget : t.nRequests ≤ ((bounds p).take t.stage.index).sum + t.stage.sentCount
  ends : 0 < t.stage.sentCount →
    (t.records t.stage.index).requests.1 + (t.records t.stage.index).requests.2 = t.nRequests
  bitsEnd : 0 < t.stage.sentCount → t.stage.inStream = true →
    (t.records t.stage.index).syndromes.1 + (t.records t.stage.index).syndromes.2 =
      t.syndromeLog.length

/-- What holds of the timing thread at every stage. -/
structure TimingInv (p : RunPlan) (t : Timing) : Prop where
  log : LogInv p t
  stage : StageInv p t

section

variable {p : RunPlan} {t t' : Timing} {s : Stage}

theorem Logged.of_eq {i : Nat} (h : Logged p t i) (hw : wireOf t' i = wireOf t i)
    (hr : (t'.records i).requests = (t.records i).requests ∧
      (t'.records i).syndromes = (t.records i).syndromes)
    (hids : idsIn t'.requestIdLog (t.records i).requests = idsIn t.requestIdLog (t.records i).requests)
    (hbits : slice t'.syndromeLog (t.records i).syndromes = slice t.syndromeLog (t.records i).syndromes) :
    Logged p t' i := by
  refine ⟨by rw [hr.1, hw]; exact h.count, by rw [hr.1, hw]; exact h.indices, ?_⟩
  obtain ⟨rounds, hlen, hframes, hslice⟩ := h.content
  exact ⟨rounds, by rw [hw]; exact hlen, by rw [hr.1, hw, hids]; exact hframes,
    by rw [hr.2, hbits]; exact hslice⟩

/-! ## Going on -/

/-- Records may change in what is no slice. -/
theorem LogInv.of_records (h : LogInv p t) {records : Nat → SentRecord}
    (hr : ∀ j, (records j).requests = (t.records j).requests ∧
      (records j).syndromes = (t.records j).syndromes) (frames : List UInt8) :
    LogInv p { t with records := records, frameArena := frames, stage := s } where
  nextId := h.nextId
  total := h.total
  logged := fun j => (h.logged j).of_eq rfl (hr j) rfl rfl
  inside := fun j => by
    rw [(hr j).1, (hr j).2]
    exact h.inside j
  apart := fun i j hij => by
    rw [(hr i).1, (hr i).2, (hr j).1, (hr j).2]
    exact h.apart i j hij

theorem update_records {i : Nat} {record : SentRecord}
    (h : record.requests = (t.records i).requests ∧ record.syndromes = (t.records i).syndromes)
    (j : Nat) : (Function.update t.records i record j).requests = (t.records j).requests ∧
      (Function.update t.records i record j).syndromes = (t.records j).syndromes := by
  by_cases hj : j = i
  · subst hj
    rw [Function.update_self]
    exact h
  · rw [Function.update_of_ne hj]
    exact ⟨rfl, rfl⟩

theorem TimingInv.goto (h : TimingInv p t) (hi : s.index = t.stage.index)
    (hsent : s.sentCount = t.stage.sentCount) (hbefore : s.before = t.stage.before)
    (hat : s.atEvent = true → t.stage.index < p.sched.events.length)
    (hstream : s.inStream = true → (p.ev t.stage.index).sendsRounds = true ∧
      (t.stage.inStream = true ∨ t.stage.sentCount = 0)) :
    TimingInv p { t with stage := s } where
  log := h.log.of_records (fun _ => ⟨rfl, rfl⟩) t.frameArena
  stage := by
    have hs := h.stage
    constructor
    all_goals simp only [hi, hsent, hbefore]
    · exact hs.current
    · exact hs.future
    · exact hs.fresh
    · exact hat
    · exact hs.dispatched
    · exact fun hin => (hstream hin).1
    · exact hs.bound
    · exact hs.budget
    · exact hs.ends
    · intro hpos hin
      rcases (hstream hin).2 with hin | hzero
      · exact hs.bitsEnd hpos hin
      · omega

theorem TimingInv.enter (h : TimingInv p t) {i : Nat} (hstage : t.stage = .waiting i) :
    TimingInv p { t with
      records := Function.update t.records i { t.records i with dispatched := true }
      stage := .failed i 0 } where
  log := by
    refine h.log.of_records (update_records ?_) t.frameArena
    exact ⟨rfl, rfl⟩
  stage := by
    have hs := h.stage
    have hcurrent := hs.current
    have hfuture := hs.future
    have hrange := hs.inRange
    have hbudget := hs.budget
    rw [hstage] at hcurrent hfuture hrange hbudget
    refine ⟨hcurrent, fun j hj => ?_, nofun, fun _ => hrange rfl, fun _ => ?_, nofun, Nat.zero_le _,
      hbudget, nofun, nofun⟩
    · have hj : i < j := hj
      change Function.update t.records i _ j = {} ∧ wireOf t j = []
      rw [Function.update_of_ne (by omega)]
      exact hfuture j hj
    · change (Function.update t.records i _ i).dispatched = true
      rw [Function.update_self]

/-- The requests that the first events can make. -/
theorem take_bounds_succ (hp : Planned p) {i : Nat} (hi : i < p.sched.events.length) :
    ((bounds p).take (i + 1)).sum = ((bounds p).take i).sum + requestBound (p.ev i) (p.ep i) := by
  have hi' : i < p.eventPlans.length := hp.lengths ▸ hi
  have hlen : i < (bounds p).length := by
    rw [bounds, List.length_zipWith]
    omega
  have hget : (bounds p)[i] = requestBound (p.ev i) (p.ep i) := by
    simp only [bounds, List.getElem_zipWith, RunPlan.ev, RunPlan.ep, List.getD_eq_getElem _ _ hi,
      List.getD_eq_getElem _ _ hi']
  rw [List.take_succ_eq_append_getElem hlen, List.sum_append, hget]
  simp

/-- The thread is through with an event. -/
theorem TimingInv.leave (hp : Planned p) (h : TimingInv p t) {record : SentRecord}
    (hat : t.stage.atEvent = true)
    (hr : record.requests = (t.records t.stage.index).requests ∧
      record.syndromes = (t.records t.stage.index).syndromes) :
    TimingInv p { t with
      records := Function.update t.records t.stage.index record
      stage := .next (t.stage.index + 1) } where
  log := h.log.of_records (update_records hr) t.frameArena
  stage := by
    have hs := h.stage
    have hnext := hs.future (t.stage.index + 1) (Nat.lt_succ_self _)
    have hother : ∀ j, t.stage.index < j →
        Function.update t.records t.stage.index record j = t.records j := fun j hj =>
      Function.update_of_ne (by omega) _ _
    refine ⟨?_, fun j hj => ?_, fun _ => ?_, nofun, nofun, nofun, Nat.zero_le _, ?_, nofun, nofun⟩
    · change (wireOf t (t.stage.index + 1)).length = 0
      rw [hnext.2]
      rfl
    · have hj : t.stage.index < j := Nat.lt_of_succ_lt hj
      change Function.update t.records t.stage.index record j = {} ∧ wireOf t j = []
      rw [hother j hj]
      exact hs.future j hj
    · exact (hother _ (Nat.lt_succ_self _)).trans hnext.1
    · change t.nRequests ≤ ((bounds p).take (t.stage.index + 1)).sum + 0
      rw [take_bounds_succ hp (hs.inRange hat)]
      have := hs.budget
      have := hs.bound
      omega

/-! ## A send -/

def sendState (t : Timing) (i : Nat) (bits : List Bool) (first : Bool) (frames frame : List UInt8)
    (next : Stage) : Timing :=
  { (beginRequest t i bits first).2 with
    frameArena := frames, wire := t.wire ++ [⟨⟨i, t.nRequests⟩, frame⟩], stage := next }

/-- 32 bits reach where an event's bits begin in their log, and their number. -/
structure Room (t : Timing) (bits : List Bool) (firstRound : Bool) : Prop where
  offset : firstRound = true → t.syndromeLog.length < 2 ^ 32
  count : (t.records t.stage.index).syndromeCount + bits.length < 2 ^ 32

instance (t : Timing) (bits : List Bool) (firstRound : Bool) : Decidable (Room t bits firstRound) :=
  decidable_of_iff ((firstRound = true → t.syndromeLog.length < 2 ^ 32) ∧
    (t.records t.stage.index).syndromeCount + bits.length < 2 ^ 32)
    ⟨fun h => ⟨h.1, h.2⟩, fun h => ⟨h.offset, h.count⟩⟩

/-- When a stage may send a request with some bits: the first round of a stream opens a slice. -/
structure MaySend (p : RunPlan) (t : Timing) (bits : List Bool) (firstRound : Bool) (next : Stage) :
    Prop where
  index : next.index = t.stage.index
  sent : next.sentCount = t.stage.sentCount + 1
  atEvent : t.stage.atEvent = true
  active : t.stage.before = false ∧ next.before = false
  streams : next.inStream = true → (p.ev t.stage.index).sendsRounds = true
  first : next.inStream = true → (firstRound = true ↔ t.stage.sentCount = 0)
  again : 0 < t.stage.sentCount → t.stage.inStream = true ∧ next.inStream = true
  single : next.inStream = false → bits = [] ∧ firstRound = false
  bound : t.stage.sentCount < requestBound (p.ev t.stage.index) (p.ep t.stage.index)
  room : Room t bits firstRound

/-! ## What a send changes -/

theorem wireOf_sendState (t : Timing) (i : Nat) (bits : List Bool) (first : Bool)
    (frames frame : List UInt8) (next : Stage) (j : Nat) :
    wireOf (sendState t i bits first frames frame next) j =
      wireOf t j ++ if j = i then [⟨⟨i, t.nRequests⟩, frame⟩] else [] := by
  simp only [wireOf, sendState, List.filter_append, List.filter_singleton]
  congr 1
  by_cases h : i = j
  · simp [h]
  · simp [h, Ne.symm h]

/-- The plan has counted what the first events can make. -/
theorem take_bounds_le (hp : Planned p) (i : Nat) : ((bounds p).take i).sum ≤ p.maxRequests := by
  have hsplit := congrArg List.sum (List.take_append_drop i (bounds p))
  rw [List.sum_append] at hsplit
  have htotal : (bounds p).sum = p.maxRequests := hp.requests
  omega

/-! ## Room for one more -/

theorem TimingInv.lt_maxRequests (hp : Planned p) (h : TimingInv p t)
    (hat : t.stage.atEvent = true)
    (hlt : t.stage.sentCount < requestBound (p.ev t.stage.index) (p.ep t.stage.index)) :
    t.nRequests < p.maxRequests := by
  have hbudget := h.stage.budget
  have hsucc := take_bounds_succ hp (h.stage.inRange hat)
  have htake := take_bounds_le hp (t.stage.index + 1)
  omega

theorem TimingInv.le_maxRequests (hp : Planned p) (h : TimingInv p t) : t.nRequests ≤ p.maxRequests := by
  have hbudget := h.stage.budget
  cases hat : t.stage.atEvent with
  | true =>
    have hbound := h.stage.bound
    have hsucc := take_bounds_succ hp (h.stage.inRange hat)
    have htake := take_bounds_le hp (t.stage.index + 1)
    omega
  | false =>
    have hnone : t.stage.sentCount = 0 := by
      cases hs : t.stage with
      | next i | finished i => rfl
      | waiting i | sent i | streaming i rounds | deciding i rounds | failed i rounds =>
        rw [hs] at hat
        exact absurd hat nofun
    have htake := take_bounds_le hp t.stage.index
    omega

/-! ## The record that grows -/

/-- What a send makes of the record of its event: the slices go on, or begin where the logs end. -/
structure Extends (t : Timing) (record : SentRecord) (bits : List Bool) (next : Stage) : Prop where
  requests : record.requests.1 + (t.records t.stage.index).requests.2 = t.nRequests
  count : record.requests.2 = (t.records t.stage.index).requests.2 + 1
  origin : 0 < (t.records t.stage.index).requests.2 →
    record.requests.1 = (t.records t.stage.index).requests.1
  content : slice (t.syndromeLog ++ bits) record.syndromes =
    slice t.syndromeLog (t.records t.stage.index).syndromes ++ bits
  inside : record.syndromes.1 + record.syndromes.2 ≤ t.syndromeLog.length + bits.length
  ends : next.inStream = true →
    record.syndromes.1 + record.syndromes.2 = t.syndromeLog.length + bits.length
  start : 0 < record.syndromes.2 → record.syndromes.1 = t.syndromeLog.length ∨
    record.syndromes.1 = (t.records t.stage.index).syndromes.1 ∧
      0 < (t.records t.stage.index).syndromes.2

variable {bits : List Bool} {firstRound : Bool}

theorem TimingInv.syndromes_eq_zero (h : TimingInv p t) (hzero : t.stage.sentCount = 0) :
    (t.records t.stage.index).syndromes.2 = 0 := by
  obtain ⟨rounds, hlen, -, hslice⟩ := (h.log.logged t.stage.index).content
  rw [h.stage.current, hzero] at hlen
  obtain rfl := List.eq_nil_of_length_eq_zero hlen
  have := length_slice (h.log.inside t.stage.index).2
  rw [hslice] at this
  simpa using this.symm

theorem TimingInv.extends (h : TimingInv p t) (hm : MaySend p t bits firstRound s) :
    Extends t ((sendState t t.stage.index bits firstRound [] [] s).records t.stage.index) bits s := by
  have hcount : (t.records t.stage.index).requestIdCount = t.stage.sentCount :=
    (h.log.logged _).count.trans h.stage.current
  have hinside : (t.records t.stage.index).syndromeOffset + (t.records t.stage.index).syndromeCount ≤
      t.syndromeLog.length := (h.log.inside t.stage.index).2
  have hroom := hm.room.count
  have hoffset : (if firstRound then u32 t.syndromeLog.length
      else (t.records t.stage.index).syndromeOffset) =
      if firstRound then t.syndromeLog.length else (t.records t.stage.index).syndromeOffset := by
    cases hfirst : firstRound with
    | true => exact u32_of_lt (hm.room.offset hfirst)
    | false => rfl
  have hrecord : (sendState t t.stage.index bits firstRound [] [] s).records t.stage.index =
      { t.records t.stage.index with
        requestIdOffset := if t.stage.sentCount = 0 then t.nRequests
          else (t.records t.stage.index).requestIdOffset
        requestIdCount := t.stage.sentCount + 1
        syndromeOffset := if firstRound then t.syndromeLog.length
          else (t.records t.stage.index).syndromeOffset
        syndromeCount := (t.records t.stage.index).syndromeCount + bits.length } := by
    simp only [sendState, beginRequest, Function.update_self, hcount, hoffset]
    rw [u32_of_lt (n := bits.length) (by omega), u32_of_lt hroom]
  generalize (sendState t t.stage.index bits firstRound [] [] s).records t.stage.index = record
    at hrecord
  subst hrecord
  have hends := h.stage.ends
  have hbitsEnd := h.stage.bitsEnd
  simp only [SentRecord.requests, SentRecord.syndromes, hcount] at hends hbitsEnd
  have hrequests : (if t.stage.sentCount = 0 then t.nRequests
      else (t.records t.stage.index).requestIdOffset) + t.stage.sentCount = t.nRequests := by
    split
    · omega
    · exact hends (by omega)
  have hzero := h.syndromes_eq_zero
  simp only [SentRecord.syndromes] at hzero
  cases hin : s.inStream with
  | false =>
    -- A single request sends no bits.
    obtain ⟨rfl, rfl⟩ := hm.single hin
    refine ⟨?_, ?_, ?_, ?_, ?_, by simp [hin], ?_⟩
    all_goals simp only [SentRecord.requests, SentRecord.syndromes, hcount]
    · exact hrequests
    · intro hpos
      rw [if_neg (by omega)]
    · simp
    · simpa using hinside
    · intro hpos
      exact .inr ⟨by simp, by simpa using hpos⟩
  | true =>
    have hfirst := hm.first hin
    cases firstRound with
    | true =>
      have hsent := hfirst.mp rfl
      have hcount0 := hzero hsent
      refine ⟨?_, ?_, ?_, ?_, ?_, ?_, ?_⟩
      all_goals simp only [SentRecord.requests, SentRecord.syndromes, hcount, hcount0, if_true,
        Nat.zero_add]
      · exact hrequests
      · intro hpos
        omega
      · rw [slice_append_self]
        simp [slice]
      · exact Nat.le_refl _
      · exact fun _ => trivial
      · exact fun _ => .inl trivial
    | false =>
      have hpos : 0 < t.stage.sentCount := by
        have : t.stage.sentCount ≠ 0 := fun hz => by simpa using hfirst.mpr hz
        omega
      have hend := hbitsEnd hpos (hm.again hpos).1
      refine ⟨?_, ?_, ?_, ?_, ?_, ?_, ?_⟩
      all_goals simp only [SentRecord.requests, SentRecord.syndromes, hcount, Bool.false_eq_true,
        if_false]
      · exact hrequests
      · intro _
        rw [if_neg (by omega)]
      · exact slice_grow hend
      · omega
      · intro _
        omega
      · intro _
        rcases Nat.eq_zero_or_pos (t.records t.stage.index).syndromeCount with hz | hp
        · exact .inl (by omega)
        · exact .inr ⟨trivial, hp⟩

/-- A slice of the ids below the new one. -/
theorem idsIn_update {log : Nat → Nat} {n rid : Nat} {r : Nat × Nat} (h : r.1 + r.2 ≤ n) :
    idsIn (Function.update log n rid) r = idsIn log r := by
  refine List.map_congr_left fun k hk => Function.update_of_ne ?_ _ _
  have := List.mem_range'_1.mp hk
  omega

/-- What is logged after a send. -/
theorem TimingInv.send_log (hp : Planned p) (h : TimingInv p t) (hm : MaySend p t bits firstRound s)
    (frames : List UInt8) :
    LogInv p (sendState t t.stage.index bits firstRound frames
      (requestFrame p.params (p.ev t.stage.index) (.ofNat t.nextRequestId) bits) s) := by
  have hlt := h.lt_maxRequests hp hm.atEvent hm.bound
  have hcounted := hp.counted
  have hext := h.extends hm
  have hwire := wireOf_sendState t t.stage.index bits firstRound frames
    (requestFrame p.params (p.ev t.stage.index) (.ofNat t.nextRequestId) bits) s
  -- the state after the send is only looked at through its fields
  generalize ht' : sendState t t.stage.index bits firstRound frames
    (requestFrame p.params (p.ev t.stage.index) (.ofNat t.nextRequestId) bits) s = t' at hwire ⊢
  have hrecord : t'.records t.stage.index =
      (sendState t t.stage.index bits firstRound [] [] s).records t.stage.index := by
    rw [← ht']
    rfl
  rw [← hrecord] at hext
  have hother : ∀ j, j ≠ t.stage.index → t'.records j = t.records j := fun j hj => by
    rw [← ht']
    exact Function.update_of_ne hj _ _
  have hn : t'.nRequests = t.nRequests + 1 := by
    rw [← ht']
    exact u32_of_lt (by omega)
  have hlog : t'.requestIdLog = Function.update t.requestIdLog t.nRequests t.nextRequestId := by
    rw [← ht']
    rfl
  have hbits : t'.syndromeLog = t.syndromeLog ++ bits := by
    rw [← ht']
    rfl
  refine ⟨?_, ?_, fun j => ?_, fun j => ?_, fun j k hjk => ?_⟩
  · rw [hn, ← ht']
    change u32 (t.nextRequestId + 1) = _
    rw [h.log.nextId, u32_add]
  · rw [hn, ← ht', h.log.total]
    simp [sendState]
  -- only the record of the event that sends grows, by the one request just logged
  · by_cases hj : j = t.stage.index
    · subst hj
      have hold := h.log.logged t.stage.index
      have hrange : List.range' (t'.records t.stage.index).requests.1
          (t'.records t.stage.index).requests.2 =
          List.range' (t.records t.stage.index).requests.1 (t.records t.stage.index).requests.2 ++
            [t.nRequests] := by
        rw [hext.count, List.range'_1_concat, hext.requests]
        congr 1
        rcases Nat.eq_zero_or_pos (t.records t.stage.index).requests.2 with hz | hpos
        · rw [hz]
          rfl
        · rw [hext.origin hpos]
      obtain ⟨rounds, hlen, hframes, hslice⟩ := hold.content
      have hids : idsIn t'.requestIdLog (t'.records t.stage.index).requests =
          idsIn t.requestIdLog (t.records t.stage.index).requests ++ [t.nextRequestId] := by
        rw [idsIn, hrange, List.map_append, hlog]
        congr 1
        · exact idsIn_update (h.log.inside _).1
        · simp
      have hwire := hwire t.stage.index
      rw [if_pos rfl] at hwire
      refine ⟨?_, ?_, rounds ++ [bits], ?_, ?_, ?_⟩
      · rw [hwire, hext.count, hold.count]
        simp
      · rw [hwire, hrange, List.map_append, hold.indices]
        rfl
      · rw [hwire, List.length_append, List.length_append, hlen]
        rfl
      · rw [hwire, hids, List.map_append, hframes, List.zipWith_append]
        · rfl
        · rw [idsIn, List.length_map, List.length_range', hlen, hold.count]
      · rw [hbits, hext.content, hslice]
        simp
    · refine (h.log.logged j).of_eq (by rw [hwire, if_neg hj, List.append_nil])
        (by rw [hother j hj]; exact ⟨rfl, rfl⟩) ?_ ?_
      · rw [hlog, idsIn_update (h.log.inside j).1]
      · rw [hbits, slice_of_grown (h.log.inside j).2 (List.prefix_append _ _)]
  · rw [hn, hbits, List.length_append]
    by_cases hj : j = t.stage.index
    · subst hj
      have := hext.requests
      have := hext.count
      exact ⟨by omega, hext.inside⟩
    · rw [hother j hj]
      have := h.log.inside j
      omega
  -- the slices of two records stay apart: an earlier record ends where the log ended
  · by_cases hk : k = t.stage.index
    · subst hk
      have hapart := h.log.apart j _ hjk
      have hinside := h.log.inside j
      rw [hother j hjk.ne]
      refine ⟨fun hpos _ => ?_, fun hpos hpos' => ?_⟩
      · rcases Nat.eq_zero_or_pos (t.records t.stage.index).requests.2 with hz | hpos'
        · have := hext.requests
          omega
        · rw [hext.origin hpos']
          exact hapart.1 hpos hpos'
      · rcases hext.start hpos' with heq | ⟨heq, hpos'⟩
        · rw [heq]
          exact hinside.2
        · rw [heq]
          exact hapart.2 hpos hpos'
    · by_cases hj : j = t.stage.index
      · subst hj
        rw [hother k hk, (h.stage.future k hjk).1]
        exact ⟨nofun, nofun⟩
      · rw [hother j hj, hother k hk]
        exact h.log.apart j k hjk

theorem TimingInv.send (hp : Planned p) (h : TimingInv p t) (hm : MaySend p t bits firstRound s)
    (frames : List UInt8) :
    TimingInv p (sendState t t.stage.index bits firstRound frames
      (requestFrame p.params (p.ev t.stage.index) (.ofNat t.nextRequestId) bits) s) where
  log := h.send_log hp hm frames
  stage := by
    have hlt := h.lt_maxRequests hp hm.atEvent hm.bound
    have hcounted := hp.counted
    have hext := h.extends hm
    have hs := h.stage
    have hwire := wireOf_sendState t t.stage.index bits firstRound frames
      (requestFrame p.params (p.ev t.stage.index) (.ofNat t.nextRequestId) bits) s
    -- as in the log, the state after the send is looked at through its fields
    generalize ht' : sendState t t.stage.index bits firstRound frames
      (requestFrame p.params (p.ev t.stage.index) (.ofNat t.nextRequestId) bits) s = t' at hwire ⊢
    have hstage : t'.stage = s := by rw [← ht']; rfl
    have hrecord : t'.records t.stage.index =
        (sendState t t.stage.index bits firstRound [] [] s).records t.stage.index := by
      rw [← ht']
      rfl
    have hn : t'.nRequests = t.nRequests + 1 := by
      rw [← ht']
      exact u32_of_lt (by omega)
    have hbits : t'.syndromeLog.length = t.syndromeLog.length + bits.length := by
      rw [← ht']
      exact List.length_append
    have hdispatched : (t'.records t.stage.index).dispatched = true := by
      rw [← ht']
      simp only [sendState, beginRequest, Function.update_self]
      exact hs.dispatched hm.active.1
    rw [← hrecord] at hext
    constructor
    all_goals rw [hstage]
    all_goals simp only [hm.index, hm.sent]
    · rw [hwire, if_pos rfl, List.length_append, hs.current]
      rfl
    · intro j hj
      rw [hwire, if_neg hj.ne', List.append_nil, ← ht']
      refine ⟨?_, (hs.future j hj).2⟩
      exact (Function.update_of_ne hj.ne' _ _).trans (hs.future j hj).1
    · intro hb
      simp [hm.active.2] at hb
    · exact fun _ => hs.inRange hm.atEvent
    · exact fun _ => hdispatched
    · exact hm.streams
    · exact hm.bound
    · rw [hn]
      have := hs.budget
      omega
    · intro _
      rw [hn, hext.count]
      have := hext.requests
      omega
    · intro _ hin
      rw [hbits]
      exact hext.ends hin

end

end CudaqQec.Playback
