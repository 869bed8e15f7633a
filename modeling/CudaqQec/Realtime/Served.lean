import CudaqQec.Realtime.Session

/-!
# What a request does to a session

For a session over a decoder, `Served` lists all that one request can do: what it answers, which calls
the decoder gets and what is left of the shot. Everything about runs is read off this list
(`handle_served`).
-/

namespace CudaqQec.Realtime

variable {τ η α : Type}

namespace DecodingSession

/-- What one request does to a session over a decoder. -/
inductive Served (e : Endpoint τ) (s : DecodingSession τ) (r : Request) :
    Response → DecodingSession τ → Prop where
  /-- Refused, or not ready. -/
  | refused (resp : Response) : r.handler ≠ .enqueue → resp.status ≠ .ok →
      Served e s r resp s
  /-- The session has failed, or has now without a call. -/
  | failed (resp : Response) : r.handler = .enqueue ∨ resp.status ≠ .ok →
      Served e s r resp { s with shotState := .failed }
  | enqueueThrew (resp : Response) (bits : List UInt8) (type : RoundType) (t : Thrown)
      (target : τ) : r.handler = .enqueue → s.shotState ≠ .failed →
      s.acceptedSyndromes + bits.length ≤ e.numMsynPerDecode →
      e.enqueueSyndrome bits type s.target = (.error t, target) →
      Served e s r resp { s with
        target := target
        shotState := .failed
        acceptedSyndromes := s.acceptedSyndromes + bits.length
        calls := s.calls ++ [.enqueue bits none] }
  | enqueued (resp : Response) (bits : List UInt8) (type : RoundType) (target : τ) :
      r.handler = .enqueue → s.shotState ≠ .failed →
      s.acceptedSyndromes + bits.length ≤ e.numMsynPerDecode →
      e.enqueueSyndrome bits type s.target = (.ok false, target) →
      Served e s r resp { s with
        target := target
        shotState := .collecting
        acceptedSyndromes := s.acceptedSyndromes + bits.length
        calls := s.calls ++ [.enqueue bits (some false)] }
  | decoded (resp : Response) (bits : List UInt8) (type : RoundType) (target : τ) :
      r.handler = .enqueue → s.shotState ≠ .failed →
      s.acceptedSyndromes + bits.length ≤ e.numMsynPerDecode →
      e.enqueueSyndrome bits type s.target = (.ok true, target) →
      Served e s r resp { s with
        target := target
        shotState := .resultReady
        acceptedSyndromes := 0
        calls := s.calls ++ [.enqueue bits (some true)] }
  /-- The decoder has no corrections, or throws. -/
  | readThrew (resp : Response) (target : τ) : r.handler ≠ .enqueue → resp.status ≠ .ok →
      Served e s r resp { s with
        target := target
        shotState := .failed
        calls := s.calls ++ [.read none] }
  /-- The corrections do not fit. -/
  | undelivered (resp : Response) (target : τ) (bits : List UInt8) :
      r.handler ≠ .enqueue → resp.status ≠ .ok → s.shotState = .resultReady →
      e.obsCorrections s.target = (.ok (some bits), target) →
      Served e s r resp { s with
        target := target
        calls := s.calls ++ [.read (some bits)] }
  | delivered (resp : Response) (target : τ) (view : ResultView) (bits : List UInt8) :
      r.handler = .getCorrections → s.shotState = .resultReady →
      parseGetCorrections r.slot = some view → 0 < view.returnSize →
      resp.result = packBits bits (bitPackedBytes view.returnSize.toNat) view.returnSize.toNat →
      e.obsCorrections s.target = (.ok (some bits), target) →
      Served e s r resp { s with
        target := target
        calls := s.calls ++ [.read (some bits)] }
  | clearThrew (resp : Response) (target : τ) (bits : List UInt8) :
      r.handler ≠ .enqueue → resp.status ≠ .ok →
      Served e s r resp { s with
        target := target
        shotState := .failed
        calls := s.calls ++ [.read (some bits), .clear false] }
  | consumed (resp : Response) (target cleared : τ) (view : ResultView) (bits : List UInt8) :
      r.handler = .getCorrections → s.shotState = .resultReady →
      parseGetCorrections r.slot = some view → 0 < view.returnSize →
      resp.result = packBits bits (bitPackedBytes view.returnSize.toNat) view.returnSize.toNat →
      e.obsCorrections s.target = (.ok (some bits), target) →
      e.clearCorrections target = (.ok (), cleared) →
      Served e s r resp { s with
        target := cleared
        shotState := .collecting
        graphResult := .empty
        calls := s.calls ++ [.read (some bits), .clear true] }
  | resetThrew (resp : Response) (target : τ) : r.handler = .reset → resp.status ≠ .ok →
      Served e s r resp { s with
        target := target
        shotState := .failed
        calls := s.calls ++ [.reset false] }
  | reset (resp : Response) (target : τ) : r.handler = .reset → resp.status = .ok →
      e.resetDecoder s.target = (.ok (), target) →
      Served e s r resp { s with
        target := target
        shotState := .collecting
        acceptedSyndromes := 0
        graphResult := .empty
        calls := s.calls ++ [.reset true] }

variable {e : Endpoint τ} {s : DecodingSession τ} (host : Host η) {h : η}

/-! ## Enqueue -/

theorem enqueueBits_cases (hdec : e.isGraph = false) (bits : List UInt8) (type : RoundType) :
    (∃ what s', enqueueBits e s bits type = (.error (.standard what), s') ∧
      s' = { s with shotState := .collecting }) ∨
    s.acceptedSyndromes + bits.length ≤ e.numMsynPerDecode ∧
      ((∃ t target, e.enqueueSyndrome bits type s.target = (.error t, target) ∧
        enqueueBits e s bits type = (.error t, { s with
          target := target
          shotState := .collecting
          acceptedSyndromes := s.acceptedSyndromes + bits.length
          calls := s.calls ++ [.enqueue bits none] })) ∨
      (∃ target, e.enqueueSyndrome bits type s.target = (.ok false, target) ∧
        enqueueBits e s bits type = (.ok (), { s with
          target := target
          shotState := .collecting
          acceptedSyndromes := s.acceptedSyndromes + bits.length
          calls := s.calls ++ [.enqueue bits (some false)] })) ∨
      ∃ target, e.enqueueSyndrome bits type s.target = (.ok true, target) ∧
        enqueueBits e s bits type = (.ok (), { s with
          target := target
          shotState := .resultReady
          acceptedSyndromes := 0
          calls := s.calls ++ [.enqueue bits (some true)] })) := by
  have hlimit : e.chunkLimit = some e.numMsynPerDecode := by simp [Endpoint.chunkLimit, hdec]
  -- the bits are refused before the decoder is called, or the call is recorded
  by_cases hover : e.numMsynPerDecode < s.acceptedSyndromes ∨
      e.numMsynPerDecode - s.acceptedSyndromes < bits.length
  · left
    exact ⟨"Syndrome volume exceeds decoder measurement capacity", _,
      by simp [enqueueBits, hlimit, hover], rfl⟩
  · refine .inr ⟨by omega, ?_⟩
    cases hcall : e.enqueueSyndrome bits type s.target with
    | mk outcome target =>
      cases outcome with
      | error t =>
        refine .inl ⟨t, target, rfl, ?_⟩
        simp [enqueueBits, hlimit, hover, hcall]
      | ok did =>
        cases did with
        | false =>
          refine .inr (.inl ⟨target, rfl, ?_⟩)
          simp [enqueueBits, hlimit, hover, hcall, hdec, captureResultUpdate, ready]
        | true =>
          refine .inr (.inr ⟨target, rfl, ?_⟩)
          simp [enqueueBits, hlimit, hover, hcall, captureResultUpdate, hdec, ready]

theorem pinned_cases (next : η → (Except Thrown α × DecodingSession τ) × η) :
    (∃ t h', pinned s host h next = ((.error t, s), h')) ∨ ∃ h', pinned s host h next = next h' := by
  unfold pinned
  cases host.pinDeviceCached h with
  | mk outcome h' =>
    cases outcome with
    | error t => exact .inl ⟨t, h', rfl⟩
    | ok _ => exact .inr ⟨h', rfl⟩

theorem captured_cases (req : EnqueueView) (next : η → (Except Thrown α × DecodingSession τ) × η) :
    (∃ t h', captured s host h req next = ((.error t, s), h')) ∨
      ∃ h', captured s host h req next = next h' := by
  unfold captured
  cases host.captureCallback with
  | none => exact .inr ⟨h, rfl⟩
  | some callback =>
    dsimp only
    cases callback (savedSyndromes req) h with
    | mk outcome h' =>
      cases outcome with
      | error t => exact .inl ⟨t, h', rfl⟩
      | ok _ => exact .inr ⟨h', rfl⟩

/-- The core of enqueue fails the session, or the decoder got the bits. -/
theorem enqueueCore_served (hdec : e.isGraph = false) (r : Request) (resp : Response)
    (req : EnqueueView) (type : RoundType) (henqueue : r.handler = .enqueue) :
    Served e s r resp (latchAll () (enqueueCore e s req type)).2 := by
  unfold enqueueCore
  by_cases hfailed : s.shotState = .failed
  · rw [if_pos hfailed]
    have hsame : s = { s with shotState := .failed } := by rw [← hfailed]
    rw [latchAll, hsame]
    exact .failed resp (.inl henqueue)
  · simp only [hfailed, if_false]
    rcases enqueueBits_cases hdec (unpackBits req.packedBits req.numSyndromes) type with
      ⟨_, s', heq, rfl⟩ | ⟨hroom, ⟨t, target, hcall, heq⟩ | ⟨target, hcall, heq⟩ | ⟨target, hcall, heq⟩⟩
    · rw [heq]
      exact .failed resp (.inl henqueue)
    · rw [heq]
      cases t with
      | standard => exact .enqueueThrew resp _ type _ target henqueue hfailed hroom hcall
      | other => exact .enqueueThrew resp _ type _ target henqueue hfailed hroom hcall
    · rw [heq]
      exact .enqueued resp _ type target henqueue hfailed hroom hcall
    · rw [heq]
      exact .decoded resp _ type target henqueue hfailed hroom hcall

theorem handleEnqueue_served (hdec : e.isGraph = false) (slot : Slot) :
    Served e s ⟨.enqueue, slot⟩ (handleEnqueue e s host h slot).1
      (handleEnqueue e s host h slot).2.1 := by
  have hfail : Served e s ⟨.enqueue, slot⟩ (respond slot (.badRequest, [])) s.fail :=
    .failed _ (.inl rfl)
  unfold handleEnqueue
  cases hparse : parseEnqueue slot with
  | none => exact hfail
  | some req =>
    dsimp only
    cases htype : e.mappingTable req.syndromeMappingId with
    | none => exact hfail
    | some type =>
      dsimp only
      rcases pinned_cases (s := s) (h := h) host
        (fun h => captured s host h req fun h => (enqueueCore e s req type, h)) with
        ⟨t, h', heq⟩ | ⟨h', heq⟩
      · rw [heq]
        exact .failed _ (.inl rfl)
      · rw [heq]
        rcases captured_cases (s := s) (h := h') host req (fun h => (enqueueCore e s req type, h)) with
          ⟨t, h'', heq'⟩ | ⟨h'', heq'⟩
        · rw [heq']
          exact .failed _ (.inl rfl)
        · rw [heq']
          exact enqueueCore_served hdec _ _ req type rfl

/-! ## Reads -/

theorem refreshGraphResult_decoder (hdec : e.isGraph = false) :
    refreshGraphResult e s = (.ok (), { s with graphResult := .empty }) := by
  simp [refreshGraphResult, hdec]

theorem clearCorrections_cases (hdec : e.isGraph = false) :
    (∃ t target, clearCorrections e s =
        (.error t, { s with target := target, calls := s.calls ++ [.clear false] })) ∨
      ∃ target, e.clearCorrections s.target = (.ok (), target) ∧
        clearCorrections e s = (.ok (), { s with
          target := target
          shotState := .collecting
          graphResult := .empty
          calls := s.calls ++ [.clear true] }) := by
  unfold clearCorrections
  cases hcall : e.clearCorrections s.target with
  | mk outcome target =>
    cases outcome with
    | error t => exact .inl ⟨t, target, rfl⟩
    | ok _ =>
      refine .inr ⟨target, rfl, ?_⟩
      dsimp only
      rw [refreshGraphResult_decoder hdec]

/-! ## The answer to a read -/

/-- The bits that were read are delivered, and consumed if that is asked. -/
theorem deliver_served (hdec : e.isGraph = false) {r : Request} {view : ResultView}
    {target : τ} {bits : List UInt8} (capacity : Nat) (hhandler : r.handler = .getCorrections)
    (hready : s.shotState = .resultReady) (hparse : parseGetCorrections r.slot = some view)
    (hsize : 0 < view.returnSize) (hread : e.obsCorrections s.target = (.ok (some bits), target)) :
    let a := latchAll (.internalError, []) (latch (.internalError, []) (deliver e { s with
      target := target
      calls := s.calls ++ [.read (some bits)] } none view.returnSize.toNat view.reset capacity bits))
    Served e s r (respond r.slot (if a.1.1 = .ok then a.1 else (a.1.1, []))) a.2 := by
  have hnot : r.handler ≠ .enqueue := by
    rw [hhandler]
    decide
  have hconsume : e.mayConsume none = true := by
    simp [Endpoint.mayConsume, Endpoint.numLogicalMeasurements, hdec]
  intro a
  -- the answer has to fit the buffer before anything is cleared
  by_cases hfit : capacity < bitPackedBytes view.returnSize.toNat
  · have ha : a = ((.internalError, []), { s with
        target := target
        calls := s.calls ++ [.read (some bits)] }) := by
      simp only [a, deliver, hconsume, hfit, if_true, not_true_eq_false, and_false, if_false]
      rfl
    rw [ha]
    exact .undelivered _ target bits hnot (by simp [respond]) hready hread
  -- a read that resets takes the corrections away, and fails the shot if that throws
  by_cases hreset : view.reset = true
  · rcases clearCorrections_cases (e := e) (s := { s with
        target := target
        calls := s.calls ++ [.read (some bits)] }) hdec with ⟨t, cleared, heq⟩ | ⟨cleared, hclear, heq⟩
    · have ha : a = ((.internalError, []), { s with
          target := cleared
          shotState := .failed
          calls := s.calls ++ [.read (some bits), .clear false] }) := by
        simp only [a, deliver, hconsume, hfit, if_true, not_true_eq_false, and_false, if_false,
          hreset, heq, List.append_assoc]
        cases t <;> rfl
      rw [ha]
      exact .clearThrew _ cleared bits hnot (by simp [respond])
    · have ha : a = ((.ok, packBits bits (bitPackedBytes view.returnSize.toNat)
          view.returnSize.toNat), { s with
          target := cleared
          shotState := .collecting
          graphResult := .empty
          calls := s.calls ++ [.read (some bits), .clear true] }) := by
        simp only [a, deliver, hconsume, hfit, if_true, not_true_eq_false, and_false, if_false,
          hreset, heq, List.append_assoc]
        rfl
      rw [ha]
      exact .consumed _ target cleared view bits hhandler hready hparse hsize rfl hread hclear
  · have ha : a = ((.ok, packBits bits (bitPackedBytes view.returnSize.toNat)
        view.returnSize.toNat), { s with
        target := target
        calls := s.calls ++ [.read (some bits)] }) := by
      simp only [a, deliver, hconsume, hfit, not_true_eq_false, and_false, if_false, hreset]
      rfl
    rw [ha]
    exact .delivered _ target view bits hhandler hready hparse hsize rfl hread

/-- The core of a read of the corrections. -/
theorem readResultCore_served (hdec : e.isGraph = false) {r : Request} {view : ResultView}
    (capacity : Nat) (hhandler : r.handler = .getCorrections)
    (hparse : parseGetCorrections r.slot = some view) :
    let a := latchAll (.internalError, [])
      (readResultCore e s false view capacity)
    Served e s r (respond r.slot (if a.1.1 = .ok then a.1 else (a.1.1, []))) a.2 := by
  have hnot : r.handler ≠ .enqueue := by
    rw [hhandler]
    decide
  -- what answers without a call leaves the session as it is
  have hrefused : ∀ status, status ≠ RpcStatus.ok → Served e s r
      (respond r.slot (if status = .ok then (status, []) else (status, []))) s := by
    intro status hstatus
    refine .refused _ hnot ?_
    rw [if_neg hstatus]
    exact hstatus
  intro a
  by_cases hrange : view.returnSize ≤ 0 ∨ view.first < 0
  · have ha : a = ((.badRequest, []), s) := by
      simp only [a, readResultCore, hrange, if_true]
      rfl
    rw [ha]
    exact hrefused .badRequest (by decide)
  have hsize : 0 < view.returnSize := by omega
  by_cases hfailed : s.shotState = .failed
  · have ha : a = ((.internalError, []), s) := by
      simp only [a, readResultCore, hrange, hfailed, if_true, if_false]
      rfl
    rw [ha]
    exact hrefused .internalError (by decide)
  by_cases hwidth : view.returnSize.toNat ≠ e.numObservables
  · have ha : a = ((.badRequest, []), s) := by
      simp only [a, readResultCore, readResult, hrange, hfailed, Bool.false_eq_true, false_and, if_false]
      rw [if_pos hwidth]
      rfl
    rw [ha]
    exact hrefused .badRequest (by decide)
  by_cases hready : s.shotState ≠ .resultReady
  · have ha : a = ((.notReady, []), s) := by
      simp only [a, readResultCore, readResult, hrange, hfailed, hwidth, hdec, Bool.false_eq_true,
        false_and, if_false, ready]
      rw [if_pos hready]
      rfl
    rw [ha]
    exact hrefused .notReady (by decide)
  have hready' : s.shotState = .resultReady := not_not.mp hready
  have hcore : a = latchAll (.internalError, []) (latch (.internalError, [])
      (readResult e s false view.first.toNat view.returnSize.toNat view.reset capacity)) := by
    simp only [a, readResultCore, hrange, hfailed, if_false]
  cases hcall : e.obsCorrections s.target with
  | mk outcome target =>
    cases outcome with
    | error t =>
      have hpublished : publishedCorrections e s = (.error t, { s with
          target := target
          calls := s.calls ++ [.read none] }) := by simp [publishedCorrections, hdec, hcall]
      have hread : readResult e s false view.first.toNat view.returnSize.toNat view.reset capacity =
          (.error t, { s with
            target := target
            calls := s.calls ++ [.read none] }) := by
        simp only [readResult, hwidth, hdec, Bool.false_eq_true, false_and, if_false, ready, hpublished]
        exact if_neg hready
      have ha : a = ((.internalError, []), { s with
          target := target
          shotState := .failed
          calls := s.calls ++ [.read none] }) := by
        rw [hcore, hread]
        cases t <;> rfl
      rw [ha]
      exact .readThrew _ target hnot (by simp [respond])
    | ok bits =>
      have hpublished : publishedCorrections e s = (.ok bits, { s with
          target := target
          calls := s.calls ++ [.read bits] }) := by simp [publishedCorrections, hdec, hcall]
      cases bits with
      | none =>
        have hread : readResult e s false view.first.toNat view.returnSize.toNat view.reset capacity =
            (.ok (.internalError, []), ({ s with
              target := target
              calls := s.calls ++ [.read none] } : DecodingSession τ).fail) := by
          simp only [readResult, hwidth, hdec, Bool.false_eq_true, false_and, if_false, ready, hpublished]
          exact if_neg hready
        have ha : a = ((.internalError, []), { s with
            target := target
            shotState := .failed
            calls := s.calls ++ [.read none] }) := by
          rw [hcore, hread]
          rfl
        rw [ha]
        exact .readThrew _ target hnot (by simp [respond])
      | some bits =>
        have hread : readResult e s false view.first.toNat view.returnSize.toNat view.reset capacity =
            deliver e { s with
              target := target
              calls := s.calls ++ [.read (some bits)] } none view.returnSize.toNat view.reset capacity
              bits := by
          simp only [readResult, hwidth, hdec, Bool.false_eq_true, false_and, if_false, ready, hpublished]
          exact if_neg hready
        rw [hcore, hread]
        exact deliver_served hdec capacity hhandler hready' hparse hsize hcall

theorem handleGetCorrections_served (hdec : e.isGraph = false) (slot : Slot) :
    Served e s ⟨.getCorrections, slot⟩ (handleGetCorrections e s host h slot).1
      (handleGetCorrections e s host h slot).2.1 := by
  unfold handleGetCorrections handleResultRequest
  cases hparse : parseResultRequest false slot with
  | none => exact .refused _ (by simp) (by simp [respond])
  | some view =>
    dsimp only
    rcases pinned_cases (s := s) (h := h) host
      (fun h => (readResultCore e s false view slot.payload.length, h)) with
      ⟨t, h', heq⟩ | ⟨h', heq⟩
    · rw [heq]
      exact .failed _ (.inr (by simp [respond, latchAll]))
    · rw [heq]
      exact readResultCore_served (r := ⟨.getCorrections, slot⟩) hdec slot.payload.length rfl hparse

theorem readResultCore_logical (hdec : e.isGraph = false) (view : ResultView) (capacity : Nat) :
    ∃ status, status ≠ RpcStatus.ok ∧
      readResultCore e s true view capacity = (.ok (status, []), s) := by
  have hwidth : e.numLogicalMeasurements = 0 := by simp [Endpoint.numLogicalMeasurements, hdec]
  unfold readResultCore
  by_cases hrange : view.returnSize ≤ 0 ∨ view.first < 0
  · exact ⟨.badRequest, by decide, if_pos hrange⟩
  · rw [if_neg hrange]
    by_cases hfailed : s.shotState = .failed
    · exact ⟨.internalError, by decide, if_pos hfailed⟩
    · refine ⟨.badRequest, by decide, ?_⟩
      simp [hfailed, readResult, hwidth, latch]

theorem handleGetLogicalMeasurements_served (hdec : e.isGraph = false) (slot : Slot) :
    Served e s ⟨.getLogicalMeasurements, slot⟩ (handleGetLogicalMeasurements e s host h slot).1
      (handleGetLogicalMeasurements e s host h slot).2.1 := by
  unfold handleGetLogicalMeasurements handleResultRequest
  cases hparse : parseResultRequest true slot with
  | none => exact .refused _ (by simp) (by simp [respond])
  | some view =>
    dsimp only
    rcases pinned_cases (s := s) (h := h) host
      (fun h => (readResultCore e s true view slot.payload.length, h)) with
      ⟨t, h', heq⟩ | ⟨h', heq⟩
    · rw [heq]
      exact .failed _ (.inr (by simp [respond, latchAll]))
    · obtain ⟨status, hstatus, hcall⟩ := readResultCore_logical (s := s) hdec view slot.payload.length
      rw [heq, hcall]
      refine .refused _ (by simp) ?_
      simp [latchAll, respond, hstatus]

/-! ## Reset -/

theorem handleReset_served (hdec : e.isGraph = false) (slot : Slot) :
    Served e s ⟨.reset, slot⟩ (handleReset e s host h slot).1 (handleReset e s host h slot).2.1 := by
  unfold handleReset
  cases hparse : parseReset slot with
  | none => exact .refused _ (by simp) (by simp [respond])
  | some _ =>
    dsimp only
    rcases pinned_cases (s := s) (h := h) host (fun h => (resetCore e s, h)) with
      ⟨t, h', heq⟩ | ⟨h', heq⟩
    · rw [heq]
      exact .failed _ (.inr (by simp [respond, latchAll]))
    · rw [heq]
      unfold resetCore resetTarget
      cases hcall : e.resetDecoder s.target with
      | mk outcome target =>
        cases outcome with
        | error t =>
          cases t with
          | standard => exact .resetThrew _ target rfl (by simp [respond, latch, latchAll])
          | other => exact .resetThrew _ target rfl (by simp [respond, latch, latchAll])
        | ok _ =>
          dsimp only
          rw [refreshGraphResult_decoder hdec]
          exact .reset _ target rfl rfl hcall

theorem handle_served (hdec : e.isGraph = false) (s : DecodingSession τ) (host : Host η) (h : η)
    (r : Request) : Served e s r (handle e s host h r).1 (handle e s host h r).2.1 := by
  obtain ⟨handler, slot⟩ := r
  cases handler with
  | enqueue => exact handleEnqueue_served host hdec slot
  | getCorrections => exact handleGetCorrections_served host hdec slot
  | getLogicalMeasurements => exact handleGetLogicalMeasurements_served host hdec slot
  | reset => exact handleReset_served host hdec slot

end DecodingSession

end CudaqQec.Realtime
