import CudaqQec.Node.Window

/-!
# What a window publishes

The streaming calls of a `window_node` with the outcome that its output edge holds, the sink that its
candidates go to and the token that may stop its decodes. A window that is fed raw syndromes fires when
its buffer is full, one that is fed detection events on every value. `fire` says whether its decode
completed: `enqueue_edge_value` returns that, `enqueue` does not look at it.

* `reports_iff`: exactly which calls report what they publish.
* `allReport_iff`: the same of a run.
-/

namespace CudaqQec

open Checked SparseBinaryMatrix Toggle

/-! ## Values -/

structure LogicalOutcome where
  bits : List Bool
  converged : Bool
  deriving DecidableEq

/-- `decoder_result`, with the cost among its optional results. -/
structure PublishingWindow.DecoderResult where
  converged : Bool
  result : List SoftValue
  cost : Option SoftValue

structure Candidate where
  result : LogicalOutcome
  producer : String
  cost : Option SoftValue

/-- The observer of a `candidate_sink`, which is shown every candidate and may throw. -/
abbrev CandidateSink := Candidate → Except Error Unit

inductive EdgeValue (τ : Type) where
  | empty
  | detectionEvents (bits : List SoftValue)
  | candidateSink (sink : CandidateSink)
  | cancellationToken (token : τ)
  | other

/-- `throw_type_mismatch`. -/
def EdgeValue.typeMismatch {τ : Type} (v : EdgeValue τ) : Error :=
  .invalidArgument (match v with
    | .empty => "edge_value: is empty"
    | _ => "edge_value: does not hold the requested type")

/-! ## Nodes -/

/-- A `window_node`, whose decoder keeps a state of type `σ`. A decode that observes a token may end
without a result. -/
structure PublishingWindow (σ τ : Type) where
  D : SparseBinaryMatrix
  O : SparseBinaryMatrix
  resultType : DecodeResultType
  decode : σ → List SoftValue → σ × Except Error PublishingWindow.DecoderResult
  decodeUntil : σ → List SoftValue → τ → σ × Except Error (Option PublishingWindow.DecoderResult)
  spr : Nat
  ws : WindowSpec
  loCol : Nat
  hiCol : Nat
  pushes : Bool
  cancellable : Bool
  id : String

/-- The members that calls change. -/
structure PublishingState (σ τ : Type) extends WindowState σ where
  lastLo : LogicalOutcome
  lastLoValid : Bool
  sink : CandidateSink
  token : τ
  pushed : List Candidate

/-- `streaming_output` of slot 0. -/
def PublishingState.streamingOutput {σ τ : Type} (st : PublishingState σ τ) : Option LogicalOutcome :=
  if st.lastLoValid then some st.lastLo else none

inductive FeedCall (τ : Type) where
  | enqueue (msyn : List UInt8)
  | enqueueEdgeValue (v : EdgeValue τ) (toSlot : Nat)

namespace PublishingWindow

variable {σ τ : Type} (n : PublishingWindow σ τ)

def sinkSlot : Option Nat := if n.pushes then some 1 else none

def tokenSlot : Option Nat := if n.cancellable then some (if n.pushes then 2 else 1) else none

def innerDecode (s : σ) (dets : List SoftValue) (token : τ) :
    σ × Except Error (Option DecoderResult) :=
  if n.cancellable then n.decodeUntil s dets token
  else ((n.decode s dets).1, (n.decode s dets).2.map some)

def commitInto : List SoftValue → Nat → Nat → Except Error (List Bool) :=
  commitColumns n.resultType n.O

def firstColumn (st : PublishingState σ τ) : Nat := if st.firesSinceReset = 0 then 0 else n.loCol

/-- `fire`. What is published is written in place, the convergence before the bits. -/
def fire (st : PublishingState σ τ) (dets : List SoftValue) :
    PublishingState σ τ × Except Error Bool :=
  match n.innerDecode st.dec dets st.token with
  | (s, .error e) => ({ st with dec := s }, .error e)
  | (s, .ok none) => ({ st with dec := s }, .ok false)
  | (s, .ok (some dr)) =>
    let valid := decide (n.hiCol < dr.result.length)
    let st := { st with
      dec := s
      lastResultValid := valid
      lastResult := if valid then dr.result else st.lastResult }
    match n.commitInto dr.result (n.firstColumn st) n.hiCol with
    | .error e =>
      ({ st with lastLo := ⟨List.replicate n.O.numRows false, dr.converged⟩ }, .error e)
    | .ok bits =>
      let st := { st with
        lastLo := ⟨bits, dr.converged⟩
        corr := xorBits st.corr bits
        lastLoValid := true
        firesSinceReset := st.firesSinceReset + 1 }
      if n.pushes then
        let candidate : Candidate := ⟨st.lastLo, n.id, dr.cost⟩
        ({ st with pushed := st.pushed ++ [candidate] }, (st.sink candidate).map fun _ => true)
      else (st, .ok true)

def slide (st : PublishingState σ τ) : PublishingState σ τ :=
  { st with toWindowState := st.toWindowState.slide n.ws n.spr }

def append (st : PublishingState σ τ) (msyn : List UInt8) : PublishingState σ τ :=
  { st with toWindowState := WindowNode.append st.toWindowState msyn }

def rawDetections (buf : List UInt8) : List SoftValue :=
  (detectInto n.D buf).map fun b => .finite b.toNat

/-- `enqueue`. -/
@[grind =]
def enqueue (st : PublishingState σ τ) (msyn : List UInt8) : PublishingState σ τ × Except Error Bool :=
  if st.flushed then (st, .error (WindowNode.rejectAfterFlush "enqueue"))
  else if st.buf.length < st.bytesIn + msyn.length then (st, .ok false)
  else
    let st := append st msyn
    if st.bytesIn < st.buf.length then (st, .ok false)
    else
      match n.fire st (n.rawDetections st.buf) with
      | (st, .error e) => (st, .error e)
      | (st, .ok _) => (n.slide st, .ok true)

/-- The detection events that `enqueue_edge_value` takes from a value. -/
def takeEvents (v : EdgeValue τ) (toSlot : Nat) : Except Error (List SoftValue) := do
  throwIf (toSlot ≠ 0) (.invalidArgument ("window_node::enqueue_edge_value: slot " ++ toString toSlot ++
    " is not supported"))
  match v with
  | .detectionEvents bits => do
    throwIf (n.ws.stride ≠ n.ws.size)
      (.invalidArgument ("window_node: a window fed detection events decodes one whole window per " ++
        "value and cannot slide (step_size " ++ toString n.ws.stride ++ " must equal window_size " ++
        toString n.ws.size ++ ")"))
    throwIf (bits.length ≠ n.D.numRows)
      (.outOfRange ("window_node: enqueue_edge_value: got " ++ toString bits.length ++
        " detectors, expected " ++ toString n.D.numRows ++
        " (the upstream node must share this node's DEM and window_size)"))
    return bits
  | _ => .error (.invalidArgument ("window_node::enqueue_edge_value: slot 0 requires " ++
      "detection_events (compile_wires should have caught this type mismatch)"))

def enqueueEdgeValue (st : PublishingState σ τ) (v : EdgeValue τ) (toSlot : Nat) :
    PublishingState σ τ × Except Error Bool :=
  if some toSlot = n.sinkSlot then
    match v with
    | .candidateSink sink => ({ st with sink := sink }, .ok false)
    | v => (st, .error v.typeMismatch)
  else if some toSlot = n.tokenSlot then
    match v with
    | .cancellationToken token => ({ st with token := token }, .ok false)
    | v => (st, .error v.typeMismatch)
  else if st.flushed then (st, .error (WindowNode.rejectAfterFlush "enqueue_edge_value"))
  else
    match n.takeEvents v toSlot with
    | .error e => (st, .error e)
    | .ok bits => n.fire st bits

def feed (st : PublishingState σ τ) : FeedCall τ → PublishingState σ τ × Except Error Bool
  | .enqueue msyn => n.enqueue st msyn
  | .enqueueEdgeValue v toSlot => n.enqueueEdgeValue st v toSlot

/-! ## Reports -/

def decodes (st : PublishingState σ τ) : FeedCall τ → Option (List SoftValue)
  | .enqueue msyn =>
    if st.flushed ∨ st.bytesIn + msyn.length ≠ st.buf.length then none
    else some (n.rawDetections (append st msyn).buf)
  | .enqueueEdgeValue v toSlot =>
    if some toSlot = n.sinkSlot ∨ some toSlot = n.tokenSlot ∨ st.flushed then none
    else (n.takeEvents v toSlot).toOption

/-- The decode that a call comes to ends with `r`: a result, or none where it is stopped. -/
def DecodesTo (st : PublishingState σ τ) (call : FeedCall τ) (r : Option DecoderResult) : Prop :=
  ∃ dets, n.decodes st call = some dets ∧ (n.innerDecode st.dec dets st.token).2 = .ok r

/-- A call that returns says whether a decode has completed in it, whose outcome is what the node then
publishes and adds to the corrections. A decode that is stopped changes neither. -/
structure Reports (st : PublishingState σ τ) (call : FeedCall τ) : Prop where
  completed : ∀ value, (n.feed st call).2 = .ok value →
    (value = true ↔ ∃ dr, n.DecodesTo st call (some dr))
  published : ∀ value dr, (n.feed st call).2 = .ok value → n.DecodesTo st call (some dr) →
    ∃ bits, n.commitInto dr.result (n.firstColumn st) n.hiCol = .ok bits ∧
      (n.feed st call).1.streamingOutput = some ⟨bits, dr.converged⟩ ∧
      (n.feed st call).1.corr = xorBits st.corr bits
  stopped : n.DecodesTo st call none →
    (n.feed st call).2 = .ok false ∧ (n.feed st call).1.corr = st.corr ∧
      (n.feed st call).1.streamingOutput = st.streamingOutput

/-- A raw chunk that fills the window, whose decode is stopped. -/
def RawStopped (st : PublishingState σ τ) (call : FeedCall τ) : Prop :=
  (∃ msyn, call = .enqueue msyn) ∧ n.DecodesTo st call none

@[grind =] def AllReport (st : PublishingState σ τ) : List (FeedCall τ) → Prop
  | [] => True
  | call :: calls => n.Reports st call ∧ AllReport (n.feed st call).1 calls

@[grind =] def NoneRawStopped (st : PublishingState σ τ) : List (FeedCall τ) → Prop
  | [] => True
  | call :: calls => ¬ n.RawStopped st call ∧ NoneRawStopped (n.feed st call).1 calls

/-! ## Fires -/

section Fires

variable {n} (st : PublishingState σ τ) {dets : List SoftValue}

theorem fire_of_error {e : Error} (h : (n.innerDecode st.dec dets st.token).2 = .error e) :
    (n.fire st dets).2 = .error e := by
  generalize hdec : n.innerDecode st.dec dets st.token = decoded at h
  obtain ⟨s, r⟩ := decoded
  subst h
  rw [fire, hdec]

theorem fire_of_stopped (h : (n.innerDecode st.dec dets st.token).2 = .ok none) :
    n.fire st dets = ({ st with dec := (n.innerDecode st.dec dets st.token).1 }, .ok false) := by
  generalize hdec : n.innerDecode st.dec dets st.token = decoded at h
  obtain ⟨s, r⟩ := decoded
  subst h
  rw [fire, hdec]

/-- A decode that completes: the call returns true unless it throws. -/
theorem fire_of_result {dr : DecoderResult}
    (h : (n.innerDecode st.dec dets st.token).2 = .ok (some dr)) {value : Bool}
    (hvalue : (n.fire st dets).2 = .ok value) :
    value = true ∧ ∃ bits, n.commitInto dr.result (n.firstColumn st) n.hiCol = .ok bits ∧
      (n.fire st dets).1.streamingOutput = some ⟨bits, dr.converged⟩ ∧
      (n.fire st dets).1.corr = xorBits st.corr bits := by
  generalize hdec : n.innerDecode st.dec dets st.token = decoded at h
  obtain ⟨s, r⟩ := decoded
  subst h
  rw [fire, hdec] at hvalue ⊢
  simp only [firstColumn] at hvalue ⊢
  cases hcommit : n.commitInto dr.result (if st.firesSinceReset = 0 then 0 else n.loCol) n.hiCol with
  | error e =>
    simp only [hcommit] at hvalue
    cases hvalue
  | ok bits =>
    simp only [hcommit] at hvalue ⊢
    by_cases hpush : n.pushes = true
    · simp only [hpush, if_true] at hvalue ⊢
      refine ⟨?_, bits, rfl, rfl, rfl⟩
      cases hsink : st.sink ⟨⟨bits, dr.converged⟩, n.id, dr.cost⟩ with
      | error e =>
        rw [hsink] at hvalue
        cases hvalue
      | ok u =>
        rw [hsink] at hvalue
        cases hvalue
        rfl
    · simp only [hpush] at hvalue ⊢
      cases hvalue
      exact ⟨rfl, bits, rfl, rfl, rfl⟩

end Fires

/-! ## Calls -/

section Calls

variable {n} (st : PublishingState σ τ)

/-- What a raw chunk comes to. -/
theorem enqueue_cases (msyn : List UInt8) :
    (n.decodes st (.enqueue msyn) = none ∧
      (n.enqueue st msyn).2 ≠ .ok true) ∨
    ∃ dets, n.decodes st (.enqueue msyn) = some dets ∧
      n.enqueue st msyn = match n.fire (append st msyn) dets with
        | (st, .error e) => (st, .error e)
        | (st, .ok _) => (n.slide st, .ok true) := by
  unfold enqueue decodes
  by_cases hflush : st.flushed = true
  · left
    simp [hflush]
  by_cases hbig : st.buf.length < st.bytesIn + msyn.length
  · left
    have hne : st.bytesIn + msyn.length ≠ st.buf.length := by omega
    simp [hflush, hbig, hne]
  have hbuf : (append st msyn).buf.length = st.buf.length := by
    change (st.buf.take st.bytesIn ++ msyn ++ st.buf.drop (st.bytesIn + msyn.length)).length = _
    simp only [List.length_append, List.length_take, List.length_drop]
    omega
  have hbytes : (append st msyn).bytesIn = st.bytesIn + msyn.length := rfl
  by_cases hfull : st.bytesIn + msyn.length = st.buf.length
  · right
    refine ⟨n.rawDetections (append st msyn).buf, ?_, ?_⟩
    · simp [hflush, hfull]
    · have hnot : ¬ (append st msyn).bytesIn < (append st msyn).buf.length := by omega
      rw [if_neg hflush, if_neg hbig]
      simp only [hnot, if_false]
  · left
    have hlt : (append st msyn).bytesIn < (append st msyn).buf.length := by omega
    simp only [hflush, hbig, hlt, if_false, if_true]
    exact ⟨by simp [hfull], by simp⟩

/-- What a value on an edge comes to. -/
theorem enqueueEdgeValue_cases (v : EdgeValue τ) (toSlot : Nat) :
    (n.decodes st (.enqueueEdgeValue v toSlot) = none ∧
      (n.enqueueEdgeValue st v toSlot).2 ≠ .ok true) ∨
    ∃ dets, n.decodes st (.enqueueEdgeValue v toSlot) = some dets ∧
      n.enqueueEdgeValue st v toSlot = n.fire st dets := by
  unfold enqueueEdgeValue
  simp only [decodes]
  by_cases hsink : some toSlot = n.sinkSlot
  · left
    rw [if_pos hsink, if_pos (.inl hsink)]
    refine ⟨rfl, ?_⟩
    cases v <;> simp
  by_cases htoken : some toSlot = n.tokenSlot
  · left
    rw [if_neg hsink, if_pos htoken, if_pos (.inr (.inl htoken))]
    refine ⟨rfl, ?_⟩
    cases v <;> simp
  by_cases hflush : st.flushed = true
  · left
    simp [hsink, htoken, hflush]
  cases htake : n.takeEvents v toSlot with
  | error e =>
    left
    simp [hsink, htoken, hflush, Except.toOption]
  | ok dets =>
    right
    refine ⟨dets, ?_, ?_⟩
    · rw [if_neg (by simp [hsink, htoken, hflush])]
      rfl
    · simp [hsink, htoken, hflush]

theorem reports_of_decodes_none {call : FeedCall τ} (h : n.decodes st call = none)
    (hvalue : (n.feed st call).2 ≠ .ok true) : n.Reports st call := by
  have hno : ∀ r, ¬ n.DecodesTo st call r := by
    rintro r ⟨dets, hdets, -⟩
    rw [h] at hdets
    cases hdets
  refine ⟨fun value hok => ?_, fun _ dr _ hdr => absurd hdr (hno _), fun hdr => absurd hdr (hno _)⟩
  constructor
  · rintro rfl
    exact absurd hok hvalue
  · rintro ⟨dr, hdr⟩
    exact absurd hdr (hno _)

/-- A value of detection events. -/
theorem reports_enqueueEdgeValue (v : EdgeValue τ) (toSlot : Nat) :
    n.Reports st (.enqueueEdgeValue v toSlot) := by
  rcases n.enqueueEdgeValue_cases st v toSlot with ⟨hnone, hvalue⟩ | ⟨dets, hdets, hfire⟩
  · exact reports_of_decodes_none st hnone hvalue
  have hdecodes : ∀ r, n.DecodesTo st (.enqueueEdgeValue v toSlot) r ↔
      (n.innerDecode st.dec dets st.token).2 = .ok r := by
    intro r
    simp [DecodesTo, hdets]
  have hfeed : n.feed st (.enqueueEdgeValue v toSlot) = n.fire st dets := hfire
  -- the decoder throws, is stopped, or has a result
  cases hres : (n.innerDecode st.dec dets st.token).2 with
  | error e =>
    have herr := fire_of_error st hres
    refine ⟨?_, ?_, ?_⟩
    · intro value hok
      rw [hfeed, herr] at hok
      cases hok
    · intro value dr hok
      rw [hfeed, herr] at hok
      cases hok
    · intro hdr
      rw [hdecodes, hres] at hdr
      cases hdr
  | ok r =>
    cases r with
    | none =>
      have hstop := fire_of_stopped st hres
      refine ⟨?_, ?_, ?_⟩
      · intro value hok
        rw [hfeed, hstop] at hok
        cases hok
        simp [hdecodes, hres]
      · intro value dr _ hdr
        rw [hdecodes, hres] at hdr
        cases hdr
      · intro _
        rw [hfeed, hstop]
        exact ⟨rfl, rfl, rfl⟩
    | some dr =>
      refine ⟨?_, ?_, ?_⟩
      · intro value hok
        rw [hfeed] at hok
        have htrue := (fire_of_result st hres hok).1
        simp [hdecodes, hres, htrue]
      · intro value dr' hok hdr
        rw [hdecodes, hres] at hdr
        cases hdr
        rw [hfeed] at hok ⊢
        exact (fire_of_result st hres hok).2
      · intro hdr
        rw [hdecodes, hres] at hdr
        cases hdr

/-- A raw chunk reports what it publishes unless it fills a window whose decode is stopped. -/
theorem reports_enqueue_iff (msyn : List UInt8) :
    n.Reports st (.enqueue msyn) ↔ ¬ n.RawStopped st (.enqueue msyn) := by
  rcases n.enqueue_cases st msyn with ⟨hnone, hvalue⟩ | ⟨dets, hdets, henqueue⟩
  · refine iff_of_true (reports_of_decodes_none st hnone hvalue) ?_
    rintro ⟨-, dets, hdets, -⟩
    rw [hnone] at hdets
    cases hdets
  have hdecodes : ∀ r, n.DecodesTo st (.enqueue msyn) r ↔
      (n.innerDecode st.dec dets st.token).2 = .ok r := by
    intro r
    simp [DecodesTo, hdets]
  have hfeed : n.feed st (.enqueue msyn) = match n.fire (append st msyn) dets with
      | (st, .error e) => (st, .error e)
      | (st, .ok _) => (n.slide st, .ok true) := henqueue
  cases hres : (n.innerDecode st.dec dets st.token).2 with
  | error e =>
    have herr := fire_of_error (append st msyn) hres
    have hthrow : (n.feed st (.enqueue msyn)).2 = .error e := by
      rw [hfeed]
      generalize n.fire (append st msyn) dets = fired at herr
      obtain ⟨st', out⟩ := fired
      subst herr
      rfl
    refine iff_of_true ⟨?_, ?_, ?_⟩ ?_
    · intro value hok
      rw [hthrow] at hok
      cases hok
    · intro value dr hok
      rw [hthrow] at hok
      cases hok
    · intro hdr
      rw [hdecodes, hres] at hdr
      cases hdr
    · rintro ⟨-, hdr⟩
      rw [hdecodes, hres] at hdr
      cases hdr
  | ok r =>
    cases r with
    | none =>
      -- the window slides on, and the call returns true
      have hstop := fire_of_stopped (append st msyn) hres
      have hstopped : n.DecodesTo st (.enqueue msyn) none := (hdecodes none).mpr hres
      refine iff_of_false (fun hreports => ?_) (not_not.mpr ⟨⟨msyn, rfl⟩, hstopped⟩)
      have hfalse := (hreports.stopped hstopped).1
      rw [hfeed, hstop] at hfalse
      cases hfalse
    | some dr =>
      have hfired : ∀ value, (n.feed st (.enqueue msyn)).2 = .ok value →
          value = true ∧ ∃ st' v, n.fire (append st msyn) dets = (st', .ok v) ∧
            (n.feed st (.enqueue msyn)).1 = n.slide st' := by
        intro value hok
        rw [hfeed] at hok ⊢
        generalize n.fire (append st msyn) dets = fired at hok
        obtain ⟨st', out⟩ := fired
        cases out with
        | error e => cases hok
        | ok v =>
          cases hok
          exact ⟨rfl, st', v, rfl, rfl⟩
      refine iff_of_true ⟨?_, ?_, ?_⟩ ?_
      · intro value hok
        simp [hdecodes, hres, (hfired value hok).1]
      · intro value dr' hok hdr
        rw [hdecodes, hres] at hdr
        cases hdr
        obtain ⟨-, st', v, hfire, hslide⟩ := hfired value hok
        have hspec := fire_of_result (append st msyn) hres (congrArg Prod.snd hfire)
        rw [hslide]
        rw [hfire] at hspec
        exact hspec.2
      · intro hdr
        rw [hdecodes, hres] at hdr
        cases hdr
      · rintro ⟨-, hdr⟩
        rw [hdecodes, hres] at hdr
        cases hdr

end Calls

theorem reports_iff (st : PublishingState σ τ) (call : FeedCall τ) :
    n.Reports st call ↔ ¬ n.RawStopped st call := by
  cases call with
  | enqueue msyn => exact reports_enqueue_iff st msyn
  | enqueueEdgeValue v toSlot =>
    refine iff_of_true (reports_enqueueEdgeValue st v toSlot) ?_
    rintro ⟨⟨msyn, h⟩, -⟩
    cases h

/-- In which runs every call does. -/
theorem allReport_iff (st : PublishingState σ τ) (calls : List (FeedCall τ)) :
    n.AllReport st calls ↔ n.NoneRawStopped st calls := by
  induction calls generalizing st with
  | nil => exact .rfl
  | cons call calls ih => exact and_congr (n.reports_iff st call) (ih _)

/-! ## A window that is stopped -/

def oneBit : SparseBinaryMatrix := .ofGroups .csr 1 1 [[0]]

/-- A window of one round of one bit, with a decoder that looks at its token first. -/
def stoppableWindow : PublishingWindow Unit Bool where
  D := oneBit
  O := oneBit
  resultType := .errors
  decode := fun s _ => (s, .ok ⟨true, [.finite 1], none⟩)
  decodeUntil := fun s _ stop => (s, .ok (if stop then none else some ⟨true, [.finite 1], none⟩))
  spr := 1
  ws := .ofCounts 1 1 0 0
  loCol := 0
  hiCol := sizeMax
  pushes := false
  cancellable := true
  id := "window"

/-- The window as constructed, and a token that no one has stopped. -/
def freshState : PublishingState Unit Bool where
  dec := ()
  firesSinceReset := 0
  bytesIn := 0
  buf := [0]
  corr := [false]
  lastResult := []
  lastResultValid := false
  flushed := false
  lastLo := ⟨[false], true⟩
  lastLoValid := false
  sink := fun _ => .ok ()
  token := false
  pushed := []

/-- A round is decoded, the token is stopped, and the next round returns true with the outcome of the
first one still published. -/
theorem not_allReport :
    ¬ ∀ (n : PublishingWindow Unit Bool) (st : PublishingState Unit Bool)
      (calls : List (FeedCall Bool)), n.AllReport st calls := by
  intro h
  obtain ⟨-, -, hreports, -⟩ := h stoppableWindow freshState
    [.enqueue [1], .enqueueEdgeValue (.cancellationToken true) 1, .enqueue [1]]
  have hstopped : stoppableWindow.DecodesTo (stoppableWindow.feed (stoppableWindow.feed freshState
      (.enqueue [1])).1 (.enqueueEdgeValue (.cancellationToken true) 1)).1 (.enqueue [1]) none :=
    ⟨_, rfl, rfl⟩
  have hfalse := (hreports.stopped hstopped).1
  cases hfalse

end PublishingWindow

end CudaqQec
