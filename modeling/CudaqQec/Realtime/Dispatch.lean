import CudaqQec.Realtime.Serving

/-!
# Dispatch in the process

The playback emulator runs request frames against the cores of a session itself, where the server hands
them to the handlers. `dispatchRpc` says of itself that it mirrors `handle_enqueue`; but it answers an
enqueue that it rejects without failing the session. `mirrors_iff`: the two agree exactly as long as none
is rejected, or the session has failed already.
-/

namespace CudaqQec.Realtime

variable {τ η α β : Type}

/-! ## The two ways -/

namespace DecodingSession

variable (e : Endpoint τ) (s : DecodingSession τ)

/-- `dispatch_rpc` of the server, for the session that a slot names. -/
def serve (host : Host η) (h : η) (slot : Slot) : Response × DecodingSession τ × η :=
  if slot.header.functionId = enqueueSyndromesFunctionId then s.handleEnqueue e host h slot
  else if slot.header.functionId = getCorrectionsFunctionId then s.handleGetCorrections e host h slot
  else if slot.header.functionId = getLogicalMeasurementsFunctionId then
    s.handleGetLogicalMeasurements e host h slot
  else if slot.header.functionId = resetDecoderFunctionId then s.handleReset e host h slot
  else (respond slot (.badRequest, []), s, h)

def replyCapacityFor (frame : Slot) : Nat :=
  match parseGetCorrections frame with
  | some view => bitPackedBytes (max view.returnSize 0).toNat
  | none =>
    match parseGetLogicalMeasurements frame with
    | some view => bitPackedBytes (max view.returnSize 0).toNat
    | none => 0

/-- `dispatch_rpc` of the playback emulator, with a reply buffer of `reply_capacity_for` bytes. -/
def dispatchRpc (frame : Slot) : Except Thrown Answer × DecodingSession τ :=
  if frame.header.functionId = enqueueSyndromesFunctionId then
    match parseEnqueue frame with
    | none => (.ok (.badRequest, []), s)
    | some req =>
      match e.mappingTable req.syndromeMappingId with
      | none => (.ok (.badRequest, []), s)
      | some type =>
        match enqueueCore e s req type with
        | (.error t, s) => (.error t, s)
        | (.ok (), s) => (.ok (.ok, []), s)
  else if frame.header.functionId = getCorrectionsFunctionId then
    match parseGetCorrections frame with
    | none => (.ok (.badRequest, []), s)
    | some view => readResultCore e s false view (replyCapacityFor frame)
  else if frame.header.functionId = getLogicalMeasurementsFunctionId then
    match parseGetLogicalMeasurements frame with
    | none => (.ok (.badRequest, []), s)
    | some view => readResultCore e s true view (replyCapacityFor frame)
  else if frame.header.functionId = resetDecoderFunctionId then
    match parseReset frame with
    | none => (.ok (.badRequest, []), s)
    | some _ =>
      match resetCore e s with
      | (.error t, s) => (.error t, s)
      | (.ok status, s) => (.ok (status, []), s)
  else (.ok (.badRequest, []), s)

end DecodingSession

structure Delivery where
  frame : Slot
  stale : List UInt8

def Delivery.slot (d : Delivery) : Slot := ⟨d.frame.header, d.frame.payload ++ d.stale⟩

/-! ## What is compared -/

/-- In states of `H`, which they do not leave, neither the device pin nor the capture hook throws. -/
structure Host.Quiet (host : Host η) (H : η → Prop) : Prop where
  pin : ∀ h, H h → (host.pinDeviceCached h).1 = .ok () ∧ H (host.pinDeviceCached h).2
  capture : ∀ callback, host.captureCallback = some callback → ∀ bits h, H h →
    (callback bits h).1 = .ok () ∧ H (callback bits h).2

/-- What a call ends with: a state of `T`, and no exception other than a `std::exception`. -/
def Standard (T : β → Prop) (r : Except Thrown α × β) : Prop := r.1 ≠ .error .other ∧ T r.2

/-- Whatever the endpoint throws in states of `T`, which its calls do not leave, is a
`std::exception`. -/
structure Endpoint.StandardThrows (e : Endpoint τ) (T : τ → Prop) : Prop where
  enqueue : ∀ bits type t, T t → Standard T (e.enqueueSyndrome bits type t)
  read : ∀ t, T t → Standard T (e.obsCorrections t)
  streaming : ∀ t, T t → Standard T (e.streamingResult t)
  clear : ∀ t, T t → Standard T (e.clearCorrections t)
  reset : ∀ t, T t → Standard T (e.resetDecoder t)

/-- A frame that holds what its header announces, in a slot that is large enough for every reply. -/
structure Delivery.Valid (e : Endpoint τ) (d : Delivery) : Prop where
  header : d.frame.header.isRequest = true ∧ d.frame.header.argLen ≤ d.frame.payload.length
  room : ∀ n, n ≤ e.numObservables ∨ n ≤ e.numLogicalMeasurements →
    bitPackedBytes n ≤ d.slot.payload.length

/-- An enqueue that cannot be read, or names no declared round. -/
def Rejected (e : Endpoint τ) (frame : Slot) : Prop :=
  frame.header.functionId = enqueueSyndromesFunctionId ∧
    (parseEnqueue frame).bind (fun req => e.mappingTable req.syndromeMappingId) = none

namespace DecodingSession

/-- Every frame gets the same status and the same result, and leaves the same shot state. -/
@[grind =]
def Mirrors (e : Endpoint τ) (host : Host η) (s : DecodingSession τ) (h : η) (s' : DecodingSession τ) :
    List Delivery → Prop
  | [] => True
  | d :: ds =>
    let served := s.serve e host h d.slot
    let dispatched := s'.dispatchRpc e d.frame
    dispatched.1 = .ok (served.1.status, served.1.result) ∧
      served.2.1.shotState = dispatched.2.shotState ∧
      Mirrors e host served.2.1 served.2.2 dispatched.2 ds

@[grind =] def Accepts (e : Endpoint τ) (host : Host η) (s : DecodingSession τ) (h : η) : List Delivery → Prop
  | [] => True
  | d :: ds =>
    (Rejected e d.frame → s.shotState = .failed) ∧
      let served := s.serve e host h d.slot
      Accepts e host served.2.1 served.2.2 ds

end DecodingSession

/-! ## A frame in a slot -/

variable {e : Endpoint τ} {host : Host η} {h : η} {s : DecodingSession τ} {d : Delivery}
  {T : τ → Prop} {H : η → Prop}

theorem field_append (p q : List UInt8) {offset size : Nat} (hfit : offset + size ≤ p.length) :
    field (p ++ q) offset size = field p offset size := by
  unfold field
  rw [List.drop_append_of_le_length (by omega), List.take_append_of_le_length]
  rw [List.length_drop]
  omega

theorem readU64_slot (hd : d.frame.header.argLen ≤ d.frame.payload.length) (offset : Nat) :
    readU64 d.slot offset = readU64 d.frame offset := by
  unfold readU64
  change (if d.frame.header.argLen < offset ∨ d.frame.header.argLen - offset < 8 then _ else _) = _
  by_cases hshort : d.frame.header.argLen < offset ∨ d.frame.header.argLen - offset < 8
  · rw [if_pos hshort, if_pos hshort]
  · rw [if_neg hshort, if_neg hshort]
    change some (field (d.frame.payload ++ d.stale) _ _, _) = _
    rw [field_append _ _ (by omega)]

theorem parseEnqueue_slot (hd : d.frame.header.argLen ≤ d.frame.payload.length) :
    parseEnqueue d.slot = parseEnqueue d.frame := by
  have hheader : d.slot.header = d.frame.header := rfl
  have hslot : ¬ d.slot.payload.length < d.frame.header.argLen := by
    change ¬ (d.frame.payload ++ d.stale).length < d.frame.header.argLen
    rw [List.length_append]
    omega
  unfold parseEnqueue
  rw [hheader, if_neg hslot, if_neg (show ¬ d.frame.payload.length < d.frame.header.argLen by omega)]
  simp only [readU64_slot hd]
  -- the four numbers are the same; so are the bits, which end with what the header announces
  cases readU64 d.frame 0 with
  | none => rfl
  | some first =>
    cases hsecond : readU64 d.frame first.2 with
    | none => simp [hsecond]
    | some second =>
      cases hthird : readU64 d.frame second.2 with
      | none => simp [hsecond, hthird]
      | some third =>
        cases hfourth : readU64 d.frame third.2 with
        | none => simp [hsecond, hthird, hfourth]
        | some fourth =>
          simp only [Option.bind_eq_bind, Option.bind_some, hsecond, hthird, hfourth]
          by_cases hbad : fourth.1 = 0 ∨ maxSyndromeBits < fourth.1 ∨
              d.frame.header.argLen < fourth.2 ∨
              d.frame.header.argLen - fourth.2 < bitPackedBytes fourth.1
          · rw [if_pos hbad, if_pos hbad]
          · rw [if_neg hbad, if_neg hbad]
            have hbits : (d.slot.payload.drop fourth.2).take (bitPackedBytes fourth.1) =
                (d.frame.payload.drop fourth.2).take (bitPackedBytes fourth.1) := by
              change ((d.frame.payload ++ d.stale).drop _).take _ = _
              rw [List.drop_append_of_le_length (by omega), List.take_append_of_le_length]
              rw [List.length_drop]
              omega
            rw [hbits]

theorem parseFixed_slot (hd : d.frame.header.argLen ≤ d.frame.payload.length) (functionId : UInt32)
    (size : Nat) : parseFixed d.slot functionId size = parseFixed d.frame functionId size := by
  unfold parseFixed
  by_cases hother : ¬ d.frame.header.isRequest ∨ d.frame.header.functionId ≠ functionId
  · rw [if_pos hother]
    exact if_pos hother
  · rw [if_neg hother]
    refine (if_neg hother).trans ?_
    have hlen : d.slot.payload.length = d.frame.payload.length + d.stale.length := List.length_append
    by_cases hshort : d.frame.header.argLen < size ∨ d.frame.payload.length < d.frame.header.argLen
    · rw [if_pos hshort, if_pos]
      change d.frame.header.argLen < size ∨ d.slot.payload.length < d.frame.header.argLen
      omega
    · rw [if_neg hshort, if_neg]
      · change some ((d.frame.payload ++ d.stale).take size) = _
        rw [List.take_append_of_le_length (by omega)]
      · change ¬ (d.frame.header.argLen < size ∨ d.slot.payload.length < d.frame.header.argLen)
        omega

/-! ## The cores throw nothing else -/

namespace DecodingSession

/-- A session over a state of `T`. -/
def Over (T : τ → Prop) (s : DecodingSession τ) : Prop := T s.target

theorem over_ready (hs : s.Over T) (completed : Bool) : (s.ready completed).Over T := by
  unfold ready
  split
  · exact hs
  · exact hs

theorem streamingResult_standard (he : e.StandardThrows T) (hs : s.Over T) :
    Standard (Over T) (streamingResult e s) := by
  unfold streamingResult
  have hcall := he.streaming s.target hs
  cases hr : e.streamingResult s.target with
  | mk outcome target =>
    rw [hr] at hcall
    cases outcome with
    | error t => exact ⟨by simpa using hcall.1, hcall.2⟩
    | ok r => exact ⟨by simp, hcall.2⟩

theorem captureResultUpdate_standard (he : e.StandardThrows T) (hs : s.Over T) (did : Bool) :
    Standard (Over T) (captureResultUpdate e s did) := by
  unfold captureResultUpdate
  split
  · exact ⟨by simp, hs⟩
  · have hcall := streamingResult_standard he hs
    cases hr : streamingResult e s with
    | mk outcome s' =>
      rw [hr] at hcall
      cases outcome with
      | error t => exact ⟨by simpa using hcall.1, hcall.2⟩
      | ok r =>
        have hs' : s'.Over T := hcall.2
        dsimp only
        split
        · exact ⟨by simp, hs'⟩
        · split
          · split
            · exact ⟨by simp, hs'⟩
            · exact ⟨by simp, hs'⟩
          · exact ⟨by simp, hs'⟩

theorem refreshGraphResult_standard (he : e.StandardThrows T) (hs : s.Over T) :
    Standard (Over T) (refreshGraphResult e s) := by
  unfold refreshGraphResult
  split
  · exact ⟨by simp, hs⟩
  · have hcall := streamingResult_standard he hs
    cases hr : streamingResult e s with
    | mk outcome s' =>
      rw [hr] at hcall
      cases outcome with
      | error t => exact ⟨by simpa using hcall.1, hcall.2⟩
      | ok r => exact ⟨by simp, hcall.2⟩

theorem enqueueBits_standard (he : e.StandardThrows T) (hs : s.Over T) (bits : List UInt8)
    (type : RoundType) : Standard (Over T) (enqueueBits e s bits type) := by
  unfold enqueueBits
  dsimp only
  split
  · exact ⟨by simp, hs⟩
  · have hcall := he.enqueue bits type s.target hs
    cases hr : e.enqueueSyndrome bits type s.target with
    | mk outcome target =>
      rw [hr] at hcall
      cases outcome with
      | error t => exact ⟨by simpa using hcall.1, hcall.2⟩
      | ok did =>
        dsimp only
        split
        · have hupdate := @captureResultUpdate_standard _ e { s with
            target := target
            shotState := .collecting
            acceptedSyndromes := s.acceptedSyndromes + bits.length
            calls := s.calls ++ [.enqueue bits (some did)] } T he hcall.2 did
          cases hu : captureResultUpdate e _ did with
          | mk outcome s' =>
            rw [hu] at hupdate
            cases outcome with
            | error t => exact ⟨by simpa using hupdate.1, hupdate.2⟩
            | ok update => exact ⟨by simp, over_ready hupdate.2 _⟩
        · exact ⟨by simp, hcall.2⟩

theorem clearCorrections_standard (he : e.StandardThrows T) (hs : s.Over T) :
    Standard (Over T) (clearCorrections e s) := by
  unfold clearCorrections
  have hcall := he.clear s.target hs
  cases hr : e.clearCorrections s.target with
  | mk outcome target =>
    rw [hr] at hcall
    cases outcome with
    | error t => exact ⟨by simpa using hcall.1, hcall.2⟩
    | ok _ =>
      dsimp only
      have hrefresh := @refreshGraphResult_standard _ e { s with
        target := target
        calls := s.calls ++ [.clear true] } T he hcall.2
      cases hu : refreshGraphResult e _ with
      | mk outcome s' =>
        rw [hu] at hrefresh
        cases outcome with
        | error t => exact ⟨by simpa using hrefresh.1, hrefresh.2⟩
        | ok _ => exact ⟨by simp, hrefresh.2⟩

theorem resetTarget_standard (he : e.StandardThrows T) (hs : s.Over T) :
    Standard (Over T) (resetTarget e s) := by
  unfold resetTarget
  have hcall := he.reset s.target hs
  cases hr : e.resetDecoder s.target with
  | mk outcome target =>
    rw [hr] at hcall
    cases outcome with
    | error t => exact ⟨by simpa using hcall.1, hcall.2⟩
    | ok _ =>
      dsimp only
      have hrefresh := @refreshGraphResult_standard _ e { s with
        target := target
        acceptedSyndromes := 0
        calls := s.calls ++ [.reset true] } T he hcall.2
      cases hu : refreshGraphResult e _ with
      | mk outcome s' =>
        rw [hu] at hrefresh
        cases outcome with
        | error t => exact ⟨by simpa using hrefresh.1, hrefresh.2⟩
        | ok _ => exact ⟨by simp, hrefresh.2⟩

/-- What a read ends with: no other exception, and no result unless the status is OK. -/
def Settled (T : β → Prop) (r : Except Thrown Answer × β) : Prop :=
  Standard T r ∧ ∀ a, r.1 = .ok a → a.1 ≠ .ok → a.2 = []

section

variable {T : β → Prop} {b : β}

/-! ## Calls that settle -/

theorem settled_refused (status : RpcStatus) (hb : T b) : Settled T (.ok (status, []), b) := by
  refine ⟨⟨by simp, hb⟩, ?_⟩
  rintro a ha -
  cases ha
  rfl

theorem settled_ok (out : List UInt8) (hb : T b) : Settled T (.ok (.ok, out), b) := by
  refine ⟨⟨by simp, hb⟩, ?_⟩
  rintro a ha hne
  cases ha
  exact absurd rfl hne

theorem settled_error {t : Thrown} (h : Standard T ((.error t, b) : Except Thrown α × β)) :
    Settled T ((.error t, b) : Except Thrown Answer × β) := by
  refine ⟨⟨by simpa using h.1, h.2⟩, ?_⟩
  rintro a ha
  cases ha

theorem settled_ite {p : Prop} [Decidable p] {x y : Except Thrown Answer × β} (hx : Settled T x)
    (hy : Settled T y) : Settled T (if p then x else y) := by
  split
  · exact hx
  · exact hy

end

theorem deliver_settled (he : e.StandardThrows T) (hs : s.Over T)
    (live : Option StreamingResult) (returnSize : Nat) (reset : Bool) (capacity : Nat)
    (bits : List UInt8) : Settled (Over T) (deliver e s live returnSize reset capacity bits) := by
  unfold deliver
  dsimp only
  refine settled_ite (settled_refused _ hs) (settled_ite (settled_refused _ hs) ?_)
  refine settled_ite ?_ (settled_ok _ hs)
  have hclear := clearCorrections_standard he hs
  cases hu : clearCorrections e s with
  | mk outcome s' =>
    rw [hu] at hclear
    cases outcome with
    | error t => exact settled_error hclear
    | ok _ => exact settled_ok _ hclear.2

theorem publishedCorrections_standard (he : e.StandardThrows T) (hs : s.Over T) :
    Standard (Over T) (publishedCorrections e s) := by
  unfold publishedCorrections
  split
  · exact ⟨by simp, hs⟩
  · have hcall := he.read s.target hs
    cases hr : e.obsCorrections s.target with
    | mk outcome target =>
      rw [hr] at hcall
      cases outcome with
      | error t => exact ⟨by simpa using hcall.1, hcall.2⟩
      | ok bits => exact ⟨by simp, hcall.2⟩

theorem readResult_settled (he : e.StandardThrows T) (hs : s.Over T) (logical : Bool)
    (first returnSize : Nat) (reset : Bool) (capacity : Nat) :
    Settled (Over T) (readResult e s logical first returnSize reset capacity) := by
  unfold readResult
  dsimp only
  refine settled_ite (settled_refused _ hs) (settled_ite (settled_refused _ hs) ?_)
  have hupdate : Standard (Over T) (if e.isGraph then captureResultUpdate e s false
      else (.ok ⟨false, none⟩, s)) := by
    split
    · exact captureResultUpdate_standard he hs false
    · exact ⟨by simp, hs⟩
  cases hu : (if e.isGraph then captureResultUpdate e s false else (.ok ⟨false, none⟩, s)) with
  | mk outcome s' =>
    rw [hu] at hupdate
    cases outcome with
    | error t => exact settled_error hupdate
    | ok update =>
      have hs' := over_ready hupdate.2 update.operationCompleted
      dsimp only
      refine settled_ite ?_ (settled_ite (settled_refused _ hs') ?_)
      · split
        · exact settled_refused _ hs'
        · exact deliver_settled he hs' ..
      · have hread := publishedCorrections_standard he hs'
        cases hp : publishedCorrections e (s'.ready update.operationCompleted) with
        | mk outcome s'' =>
          rw [hp] at hread
          cases outcome with
          | error t => exact settled_error hread
          | ok bits =>
            cases bits with
            | none => exact settled_refused _ (b := s''.fail) hread.2
            | some bits => exact deliver_settled he hread.2 ..

/-- A core that throws nothing else answers. -/
theorem latch_eq_ok (answer : α) {r : Except Thrown α × DecodingSession τ}
    (hr : Standard (Over T) r) : ∃ a s', latch answer r = (.ok a, s') ∧ s'.Over T := by
  obtain ⟨outcome, s'⟩ := r
  cases outcome with
  | ok a => exact ⟨a, s', rfl, hr.2⟩
  | error t =>
    cases t with
    | standard => exact ⟨answer, s'.fail, rfl, hr.2⟩
    | other => exact absurd rfl hr.1

/-! ## The three cores -/

theorem enqueueCore_eq_ok (he : e.StandardThrows T) (hs : s.Over T) (req : EnqueueView)
    (type : RoundType) : ∃ s', enqueueCore e s req type = (.ok (), s') ∧ s'.Over T := by
  unfold enqueueCore
  split
  · exact ⟨s, rfl, hs⟩
  · obtain ⟨_, s', heq, hs'⟩ := latch_eq_ok () (enqueueBits_standard he hs
      (unpackBits req.packedBits req.numSyndromes) type)
    exact ⟨s', heq, hs'⟩

theorem resetCore_eq_ok (he : e.StandardThrows T) (hs : s.Over T) :
    ∃ status s', resetCore e s = (.ok status, s') ∧ s'.Over T :=
  latch_eq_ok _ (resetTarget_standard he hs)

theorem readResultCore_eq_ok (he : e.StandardThrows T) (hs : s.Over T) (logical : Bool)
    (view : ResultView) (capacity : Nat) :
    ∃ a s', readResultCore e s logical view capacity = (.ok a, s') ∧ (a.1 ≠ .ok → a.2 = []) ∧
      s'.Over T := by
  unfold readResultCore
  split
  · exact ⟨_, _, rfl, fun _ => rfl, hs⟩
  split
  · exact ⟨_, _, rfl, fun _ => rfl, hs⟩
  have hsettled := readResult_settled he hs logical view.first.toNat view.returnSize.toNat view.reset
    capacity
  generalize readResult e s logical view.first.toNat view.returnSize.toNat view.reset capacity = r
    at hsettled
  obtain ⟨outcome, s'⟩ := r
  cases outcome with
  | ok a => exact ⟨a, s', rfl, hsettled.2 a rfl, hsettled.1.2⟩
  | error t =>
    cases t with
    | standard => exact ⟨_, _, rfl, fun _ => rfl, hsettled.1.2⟩
    | other => exact absurd rfl hsettled.1.1

/-! ## The room of a reply -/

theorem deliver_capacity (s : DecodingSession τ) (live : Option StreamingResult) {returnSize : Nat}
    (reset : Bool) {capacity : Nat} (bits : List UInt8) (hfit : bitPackedBytes returnSize ≤ capacity) :
    deliver e s live returnSize reset capacity bits =
      deliver e s live returnSize reset (bitPackedBytes returnSize) bits := by
  unfold deliver
  dsimp only
  rw [if_neg (Nat.not_lt.mpr hfit), if_neg (Nat.lt_irrefl _)]

theorem readResult_capacity (s : DecodingSession τ) (logical : Bool) (first : Nat) {returnSize : Nat}
    (reset : Bool) {capacity : Nat}
    (hfit : returnSize ≤ e.numObservables ∨ returnSize ≤ e.numLogicalMeasurements →
      bitPackedBytes returnSize ≤ capacity) :
    readResult e s logical first returnSize reset capacity =
      readResult e s logical first returnSize reset (bitPackedBytes returnSize) := by
  unfold readResult
  dsimp only
  by_cases hrange : if logical then e.numLogicalMeasurements < first ∨
      e.numLogicalMeasurements - first < returnSize else returnSize ≠ e.numObservables
  · cases logical with
    | true =>
      simp only [if_true] at hrange ⊢
      rw [if_pos hrange, if_pos hrange]
    | false =>
      simp only [Bool.false_eq_true, if_false] at hrange ⊢
      rw [if_pos hrange, if_pos hrange]
  · have hle : returnSize ≤ e.numObservables ∨ returnSize ≤ e.numLogicalMeasurements := by
      cases logical with
      | true =>
        simp only [if_true] at hrange
        right
        omega
      | false =>
        simp only [Bool.false_eq_true, if_false] at hrange
        left
        omega
    simp only [fun s live bits => deliver_capacity (e := e) s live reset bits (hfit hle)]

theorem readResultCore_capacity (s : DecodingSession τ) (logical : Bool) (view : ResultView)
    {capacity : Nat} (hfit : ∀ n, n ≤ e.numObservables ∨ n ≤ e.numLogicalMeasurements →
      bitPackedBytes n ≤ capacity) :
    readResultCore e s logical view capacity =
      readResultCore e s logical view (bitPackedBytes (max view.returnSize 0).toNat) := by
  unfold readResultCore
  by_cases hrange : view.returnSize ≤ 0 ∨ view.first < 0
  · rw [if_pos hrange, if_pos hrange]
  · have hmax : max view.returnSize 0 = view.returnSize := by omega
    rw [hmax, readResult_capacity s logical _ _ (hfit _)]

/-! ## One frame -/

theorem pinned_quiet (hquiet : host.Quiet H) (hh : H h)
    (next : η → (Except Thrown α × DecodingSession τ) × η) :
    pinned s host h next = next (host.pinDeviceCached h).2 := by
  unfold pinned
  have hpin := (hquiet.pin h hh).1
  cases hr : host.pinDeviceCached h with
  | mk outcome h' =>
    rw [hr] at hpin
    cases hpin
    rfl

theorem captured_quiet (hquiet : host.Quiet H) (hh : H h) (req : EnqueueView)
    (next : η → (Except Thrown α × DecodingSession τ) × η) :
    ∃ h', captured s host h req next = next h' ∧ H h' := by
  unfold captured
  cases hc : host.captureCallback with
  | none => exact ⟨h, rfl, hh⟩
  | some callback =>
    dsimp only
    have hcall := hquiet.capture callback hc (savedSyndromes req) h hh
    cases hr : callback (savedSyndromes req) h with
    | mk outcome h' =>
      rw [hr] at hcall
      obtain ⟨hok, hh'⟩ := hcall
      cases hok
      exact ⟨h', rfl, hh'⟩

/-- A read is answered alike. -/
theorem handleResultRequest_eq (he : e.StandardThrows T) (hs : s.Over T) (hquiet : host.Quiet H)
    (hh : H h) (hd : d.Valid e) (logical : Bool) {view : ResultView}
    (hparse : parseResultRequest logical d.slot = some view) :
    ∃ a s' h', handleResultRequest e s host h logical d.slot = (respond d.slot a, s', h') ∧
      readResultCore e s logical view (bitPackedBytes (max view.returnSize 0).toNat) =
        (.ok a, s') ∧ s'.Over T ∧ H h' := by
  obtain ⟨a, s', heq, hempty, hs'⟩ := readResultCore_eq_ok he hs logical view d.slot.payload.length
  refine ⟨a, s', (host.pinDeviceCached h).2, ?_, ?_, hs', (hquiet.pin h hh).2⟩
  · unfold handleResultRequest
    rw [hparse]
    dsimp only
    rw [pinned_quiet hquiet hh, heq]
    change (respond d.slot (if a.1 = .ok then a else (a.1, [])), s', _) = _
    by_cases hok : a.1 = .ok
    · rw [if_pos hok]
    · rw [if_neg hok, ← hempty hok]
  · rw [← readResultCore_capacity s logical view hd.room, heq]

/-- An enqueue that is not rejected is answered alike. -/
theorem handleEnqueue_eq (he : e.StandardThrows T) (hs : s.Over T) (hquiet : host.Quiet H)
    (hh : H h) {req : EnqueueView} {type : RoundType} {slot : Slot}
    (hparse : parseEnqueue slot = some req)
    (htype : e.mappingTable req.syndromeMappingId = some type) :
    ∃ s' h', handleEnqueue e s host h slot = (respond slot (.ok, []), s', h') ∧
      enqueueCore e s req type = (.ok (), s') ∧ s'.Over T ∧ H h' := by
  obtain ⟨s', heq, hs'⟩ := enqueueCore_eq_ok he hs req type
  obtain ⟨h', hcapture, hh'⟩ := @captured_quiet _ _ _ host (host.pinDeviceCached h).2 s H hquiet
    (hquiet.pin h hh).2 req fun h => (enqueueCore e s req type, h)
  refine ⟨s', h', ?_, heq, hs', hh'⟩
  unfold handleEnqueue
  rw [hparse]
  dsimp only
  rw [htype]
  dsimp only
  rw [pinned_quiet hquiet hh, hcapture, heq]
  rfl

theorem parseFixed_eq_none {slot : Slot} {functionId : UInt32} (size : Nat)
    (hother : slot.header.functionId ≠ functionId) : parseFixed slot functionId size = none :=
  if_pos (.inr hother)

/-- A frame is served as it is dispatched, unless it is an enqueue that fails the session. -/
theorem serve_eq_dispatch (he : e.StandardThrows T) (hs : s.Over T) (hquiet : host.Quiet H)
    (hh : H h) (hd : d.Valid e) (haccept : Rejected e d.frame → s.shotState = .failed) :
    ∃ a s' h', serve e s host h d.slot = (respond d.slot a, s', h') ∧
      dispatchRpc e s d.frame = (.ok a, s') ∧ s'.Over T ∧ H h' := by
  have hheader : d.slot.header = d.frame.header := rfl
  have hfixed := parseFixed_slot hd.header.2
  -- an enqueue that cannot be parsed fails the session; here it has failed already
  have hfail : s.shotState = .failed → s.fail = s := by
    intro hfailed
    unfold fail
    rw [← hfailed]
  unfold serve dispatchRpc
  rw [hheader]
  by_cases henqueue : d.frame.header.functionId = enqueueSyndromesFunctionId
  · rw [if_pos henqueue, if_pos henqueue]
    cases hparse : parseEnqueue d.frame with
    | none =>
      refine ⟨(.badRequest, []), s, h, ?_, rfl, hs, hh⟩
      unfold handleEnqueue
      rw [parseEnqueue_slot hd.header.2, hparse]
      dsimp only
      rw [hfail (haccept ⟨henqueue, by rw [hparse]; rfl⟩)]
    | some req =>
      dsimp only
      cases htype : e.mappingTable req.syndromeMappingId with
      | none =>
        refine ⟨(.badRequest, []), s, h, ?_, rfl, hs, hh⟩
        unfold handleEnqueue
        rw [parseEnqueue_slot hd.header.2, hparse]
        dsimp only
        rw [htype]
        dsimp only
        rw [hfail (haccept ⟨henqueue, by rw [hparse]; exact htype⟩)]
      | some type =>
        obtain ⟨s', h', hserve, hcore, hs', hh'⟩ := handleEnqueue_eq he hs hquiet hh
          ((parseEnqueue_slot hd.header.2).trans hparse) htype
        refine ⟨(.ok, []), s', h', hserve, ?_, hs', hh'⟩
        dsimp only
        rw [hcore]
  rw [if_neg henqueue, if_neg henqueue]
  by_cases hcorrections : d.frame.header.functionId = getCorrectionsFunctionId
  · rw [if_pos hcorrections, if_pos hcorrections]
    have hslot : parseGetCorrections d.slot = parseGetCorrections d.frame := by
      unfold parseGetCorrections
      rw [hfixed]
    unfold replyCapacityFor
    cases hparse : parseGetCorrections d.frame with
    | none =>
      refine ⟨(.badRequest, []), s, h, ?_, rfl, hs, hh⟩
      unfold handleGetCorrections handleResultRequest
      rw [show parseResultRequest false d.slot = none from hslot.trans hparse]
    | some view =>
      exact handleResultRequest_eq he hs hquiet hh hd false (hslot.trans hparse)
  rw [if_neg hcorrections, if_neg hcorrections]
  by_cases hlogical : d.frame.header.functionId = getLogicalMeasurementsFunctionId
  · rw [if_pos hlogical, if_pos hlogical]
    have hslot : parseGetLogicalMeasurements d.slot = parseGetLogicalMeasurements d.frame := by
      unfold parseGetLogicalMeasurements
      rw [hfixed]
    -- the buffer for the answer is sized by the request it parses as, which is only the one
    have hnone : parseGetCorrections d.frame = none := by
      unfold parseGetCorrections
      rw [parseFixed_eq_none 17 hcorrections]
      rfl
    unfold replyCapacityFor
    rw [hnone]
    cases hparse : parseGetLogicalMeasurements d.frame with
    | none =>
      refine ⟨(.badRequest, []), s, h, ?_, rfl, hs, hh⟩
      unfold handleGetLogicalMeasurements handleResultRequest
      rw [show parseResultRequest true d.slot = none from hslot.trans hparse]
    | some view =>
      exact handleResultRequest_eq he hs hquiet hh hd true (hslot.trans hparse)
  rw [if_neg hlogical, if_neg hlogical]
  by_cases hreset : d.frame.header.functionId = resetDecoderFunctionId
  · rw [if_pos hreset, if_pos hreset]
    have hslot : parseReset d.slot = parseReset d.frame := by
      unfold parseReset
      rw [hfixed]
    unfold handleReset
    rw [hslot]
    cases hparse : parseReset d.frame with
    | none => exact ⟨(.badRequest, []), s, h, rfl, rfl, hs, hh⟩
    | some _ =>
      obtain ⟨status, s', hcore, hs'⟩ := resetCore_eq_ok he hs
      refine ⟨(status, []), s', (host.pinDeviceCached h).2, ?_, ?_, hs', (hquiet.pin h hh).2⟩
      · dsimp only
        rw [pinned_quiet hquiet hh, hcore]
        rfl
      · dsimp only
        rw [hcore]
  · rw [if_neg hreset, if_neg hreset]
    exact ⟨(.badRequest, []), s, h, rfl, rfl, hs, hh⟩

/-! ## A run of frames -/

/-- An enqueue that is rejected fails the server's session, and leaves the emulator's as it is. -/
theorem shotState_of_rejected (hd : d.Valid e) (hrejected : Rejected e d.frame) :
    (serve e s host h d.slot).2.1.shotState = .failed ∧ (dispatchRpc e s d.frame).2 = s := by
  obtain ⟨henqueue, hnone⟩ := hrejected
  have hheader : d.slot.header = d.frame.header := rfl
  unfold serve dispatchRpc handleEnqueue
  rw [hheader, if_pos henqueue, if_pos henqueue, parseEnqueue_slot hd.header.2]
  cases hparse : parseEnqueue d.frame with
  | none => exact ⟨rfl, rfl⟩
  | some req =>
    rw [hparse, Option.bind_some] at hnone
    dsimp only
    rw [hnone]
    exact ⟨rfl, rfl⟩

/-- The server and the emulator agree on a run exactly when every enqueue that is rejected finds the
session failed. -/
theorem mirrors_iff (he : e.StandardThrows T) (hquiet : host.Quiet H) (s : DecodingSession τ)
    (hs : s.Over T) (h : η) (hh : H h) (ds : List Delivery) (hds : ∀ d ∈ ds, d.Valid e) :
    Mirrors e host s h s ds ↔ Accepts e host s h ds := by
  induction ds generalizing s h with
  | nil => exact Iff.rfl
  | cons d ds ih =>
    have hd := hds d (List.mem_cons_self ..)
    by_cases haccept : Rejected e d.frame → s.shotState = .failed
    · obtain ⟨a, s', h', hserve, hdispatch, hs', hh'⟩ :=
        serve_eq_dispatch he hs hquiet hh hd haccept
      unfold Mirrors Accepts
      rw [hserve, hdispatch]
      have hrest := ih s' hs' h' hh' fun d hd => hds d (List.mem_cons_of_mem _ hd)
      constructor
      · rintro ⟨-, -, hmirrors⟩
        exact ⟨haccept, hrest.mp hmirrors⟩
      · rintro ⟨-, haccepts⟩
        exact ⟨rfl, rfl, hrest.mpr haccepts⟩
    · constructor
      · rintro ⟨-, hstate, -⟩
        exact absurd (fun hrejected => by
          obtain ⟨hserved, hdispatched⟩ := shotState_of_rejected (h := h) (s := s)
            hd hrejected
          rw [hserved, hdispatched] at hstate
          exact hstate.symm) haccept
      · rintro ⟨hall, -⟩
        exact absurd hall haccept

end DecodingSession

namespace SessionExample

open DecodingSession

theorem host_quiet : SessionExample.host.Quiet fun _ => True where
  pin _ _ := ⟨rfl, trivial⟩
  capture _ hnone := by cases hnone

theorem parity_standard : parity.StandardThrows fun _ => True where
  enqueue _ _ _ _ := ⟨by simp [parity], trivial⟩
  read _ _ := ⟨by simp [parity], trivial⟩
  streaming _ _ := ⟨by simp [parity], trivial⟩
  clear _ _ := ⟨by simp [parity], trivial⟩
  reset _ _ := ⟨by simp [parity], trivial⟩

/-- One byte is room for every reply. -/
theorem valid_of_length {d : Delivery} (hheader : d.frame.header.isRequest = true ∧
    d.frame.header.argLen ≤ d.frame.payload.length) (hroom : 1 ≤ d.slot.payload.length) :
    d.Valid parity := by
  refine ⟨hheader, fun n hn => ?_⟩
  have hle : n ≤ 1 := by
    rcases hn with hn | hn
    · exact hn
    · exact Nat.le_succ_of_le hn
  have hone : bitPackedBytes n ≤ 1 := by
    unfold bitPackedBytes
    omega
  exact hone.trans hroom

def frames : List Delivery := [⟨enqueueTwo.slot, [7]⟩, ⟨readOne.slot, []⟩]

theorem mirrors_frames : Mirrors parity SessionExample.host session () session frames := by
  apply (mirrors_iff parity_standard host_quiet session trivial () trivial frames ?_).mpr
  · refine ⟨?_, ?_, trivial⟩
    · rintro ⟨-, hnone⟩
      exact absurd hnone (by decide)
    · rintro ⟨hfunction, -⟩
      exact absurd hfunction (by decide)
  · intro d hd
    rcases List.mem_cons.mp hd with rfl | hd
    · exact valid_of_length ⟨rfl, by decide⟩ (by decide)
    · rw [List.mem_singleton.mp hd]
      exact valid_of_length ⟨rfl, by decide⟩ (by decide)

def undeclared : Delivery :=
  ⟨⟨⟨true, enqueueSyndromesFunctionId, 33, 1, 0⟩, word 0 ++ word 0 ++ word 1 ++ word 2 ++ [1]⟩, []⟩

/-- The server's session fails, the emulator's does not. -/
theorem not_mirrors_undeclared : (parity.StandardThrows fun _ => True) ∧
    (SessionExample.host.Quiet fun _ => True) ∧ undeclared.Valid parity ∧
    ¬ Mirrors parity SessionExample.host session () session [undeclared] := by
  refine ⟨parity_standard, host_quiet, valid_of_length ⟨rfl, by decide⟩ (by decide), ?_⟩
  rintro ⟨-, hstate, -⟩
  exact absurd hstate (by decide)

end SessionExample

end CudaqQec.Realtime
