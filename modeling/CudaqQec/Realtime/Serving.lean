import CudaqQec.Realtime.Served
import Mathlib.Data.List.Induction

/-!
# What a session serves

Runs of a session over a decoder that returns true exactly when a volume is complete. The session counts
the bits it has accepted as the decoder does (`Synced`); so no volume is overrun, a failure stays until a
reset, and an OK carries the corrections of the volume completed last: `serves_finished`.
-/

namespace CudaqQec.Realtime

variable {τ η : Type}

/-- A decoder of volume `n`, of which `fill` is how much of the volume it holds. -/
structure PlainDecoder (e : Endpoint τ) (n : Nat) (fill : τ → Nat) : Prop where
  isGraph : e.isGraph = false
  volume : e.numMsynPerDecode = n
  enqueue : ∀ bits type t did t', e.enqueueSyndrome bits type t = (.ok did, t') →
    fill t + bits.length ≤ n →
      (did = true ↔ fill t + bits.length = n) ∧ fill t' = if did then 0 else fill t + bits.length
  read : ∀ t bits t', e.obsCorrections t = (.ok bits, t') → fill t' = fill t
  clear : ∀ t t', e.clearCorrections t = (.ok (), t') → fill t' = fill t
  reset : ∀ t t', e.resetDecoder t = (.ok (), t') → fill t' = 0

/-! ## What the calls say -/

namespace TargetCall

def isEnqueue : TargetCall → Bool
  | enqueue .. => true
  | _ => false

/-- How many bits the decoder got in the volume under way, and whether it was completed. A volume ends
when it is completed or the decoder is reset. -/
def volumeStep : Nat × Bool → TargetCall → Nat × Bool
  | (count, completed), enqueue bits result =>
    ((if completed then 0 else count) + bits.length, result = some true)
  | _, reset true => (0, false)
  | volume, _ => volume

def volume (calls : List TargetCall) : Nat × Bool := calls.foldl volumeStep (0, false)

/-- The syndrome bits accepted last completed a volume of `n`, and was only read since. -/
def Finished (n : Nat) (calls : List TargetCall) : Prop :=
  ∃ pre bits post, calls = pre ++ enqueue bits (some true) :: post ∧
    (volume (pre ++ [enqueue bits (some true)])).1 = n ∧ ∀ c ∈ post, ∃ b, c = read b

theorem volume_append (calls : List TargetCall) (c : TargetCall) :
    volume (calls ++ [c]) = volumeStep (volume calls) c := List.foldl_append ..

theorem Finished.read {n : Nat} {calls : List TargetCall} (h : Finished n calls)
    (b : Option (List UInt8)) : Finished n (calls ++ [.read b]) := by
  obtain ⟨pre, bits, post, rfl, hcount, hpost⟩ := h
  refine ⟨pre, bits, post ++ [.read b], by simp, hcount, fun c hc => ?_⟩
  rcases List.mem_append.mp hc with hc | hc
  · exact hpost c hc
  · exact ⟨b, List.mem_singleton.mp hc⟩

end TargetCall

namespace DecodingSession

open TargetCall

variable (e : Endpoint τ) (host : Host η)

@[grind =] def run (s : DecodingSession τ) (h : η) : List Request → List Response × DecodingSession τ × η
  | [] => ([], s, h)
  | r :: rs =>
    let step := s.handle e host h r
    let rest := run step.2.1 step.2.2 rs
    (step.1 :: rest.1, rest.2)

/-- A session as it is created. -/
structure Fresh (fill : τ → Nat) (s : DecodingSession τ) : Prop where
  shotState : s.shotState = .collecting
  acceptedSyndromes : s.acceptedSyndromes = 0
  calls : s.calls = []
  fill : fill s.target = 0

/-- As long as no reset succeeds, no enqueue reaches the decoder and no read is answered OK. -/
def StaysFailed (s : DecodingSession τ) : Prop :=
  ∀ h rs, (∀ p ∈ rs.zip (run e host s h rs).1, p.1.handler = .reset → p.2.status ≠ .ok) →
    (∀ p ∈ rs.zip (run e host s h rs).1, p.1.handler ≠ .enqueue → p.2.status ≠ .ok) ∧
    ∃ more, (run e host s h rs).2.1.calls = s.calls ++ more ∧ ∀ c ∈ more, c.isEnqueue = false

/-- An OK answers with the corrections of a volume that was completed, and not consumed since. -/
def ServesFinished (n : Nat) (s : DecodingSession τ) : Prop :=
  ∀ h r, r.handler = .getCorrections → (s.handle e host h r).1.status = .ok →
    Finished n s.calls ∧ ∃ view bits, parseGetCorrections r.slot = some view ∧ 0 < view.returnSize ∧
      (e.obsCorrections s.target).1 = .ok (some bits) ∧
      Carries (s.handle e host h r).1.result bits view.returnSize.toNat

/-- The session counts the volume as the decoder does. -/
structure Synced (n : Nat) (fill : τ → Nat) (s : DecodingSession τ) : Prop where
  bound : (volume s.calls).1 ≤ n
  fill : s.shotState ≠ .failed → fill s.target = s.acceptedSyndromes
  count : s.shotState ≠ .failed →
    s.acceptedSyndromes = if (volume s.calls).2 then 0 else (volume s.calls).1
  finished : s.shotState = .resultReady → Finished n s.calls ∧ s.acceptedSyndromes = 0

variable {e} {host} {n : Nat} {fill : τ → Nat} {s s' : DecodingSession τ} {r : Request}
  {resp : Response}

theorem Fresh.synced (h : Fresh fill s) : Synced n fill s := by
  obtain ⟨hstate, haccepted, hcalls, hfill⟩ := h
  refine ⟨?_, fun _ => by rw [hfill, haccepted], fun _ => ?_, fun hready => ?_⟩
  · rw [hcalls]
    exact Nat.zero_le n
  · rw [haccepted, hcalls]
    rfl
  · rw [hstate] at hready
    cases hready

/-! ## What a call adds -/

theorem Synced.volume_enqueue (h : Synced n fill s) (hdec : PlainDecoder e n fill)
    (hfailed : s.shotState ≠ .failed) (bits : List UInt8) (result : Option Bool)
    (hroom : s.acceptedSyndromes + bits.length ≤ e.numMsynPerDecode) :
    volume (s.calls ++ [.enqueue bits result]) =
      (s.acceptedSyndromes + bits.length, decide (result = some true)) ∧
    s.acceptedSyndromes + bits.length ≤ n := by
  rw [hdec.volume] at hroom
  refine ⟨?_, hroom⟩
  rw [volume_append, h.count hfailed]
  rfl

theorem Synced.read (h : Synced n fill s) {target : τ} (bits : Option (List UInt8))
    (hfill : fill target = fill s.target) : Synced n fill { s with
      target := target
      calls := s.calls ++ [.read bits] } := by
  have hvolume : volume (s.calls ++ [.read bits]) = volume s.calls := volume_append ..
  refine ⟨?_, fun hnot => ?_, fun hnot => ?_, fun hready => ?_⟩
  · rw [hvolume]
    exact h.bound
  · exact hfill.trans (h.fill hnot)
  · rw [hvolume]
    exact h.count hnot
  · obtain ⟨hfinished, hzero⟩ := h.finished hready
    exact ⟨hfinished.read bits, hzero⟩

/-- A failure leaves only the bound. -/
theorem synced_failed (hstate : s.shotState = .failed) (hbound : (volume s.calls).1 ≤ n) :
    Synced n fill s :=
  ⟨hbound, fun hnot => absurd hstate hnot, fun hnot => absurd hstate hnot, fun hready => by
    rw [hstate] at hready
    cases hready⟩

/-- A request keeps the counts. -/
theorem Served.synced (hdec : PlainDecoder e n fill) (hs : Served e s r resp s') (h : Synced n fill s) :
    Synced n fill s' := by
  cases hs with
  | refused => exact ⟨h.bound, h.fill, h.count, h.finished⟩
  | failed => exact synced_failed rfl h.bound
  -- a call that throws ends the shot: no count has to agree any more
  | enqueueThrew bits type t target _ hfailed hroom hcall =>
    obtain ⟨hvolume, hle⟩ := h.volume_enqueue hdec hfailed bits none hroom
    apply synced_failed rfl
    rw [hvolume]
    exact hle
  | enqueued bits type target _ hfailed hroom hcall =>
    obtain ⟨hvolume, hle⟩ := h.volume_enqueue hdec hfailed bits (some false) hroom
    have hfill := hdec.enqueue bits type _ _ _ hcall (by rw [h.fill hfailed]; exact hle)
    refine ⟨?_, fun _ => ?_, fun _ => ?_, fun hready => by cases hready⟩
    · dsimp only
      rw [hvolume]
      exact hle
    · rw [h.fill hfailed] at hfill
      exact hfill.2
    · dsimp only
      rw [hvolume]
      rfl
  -- the last bits of a shot: all of them have arrived, and none is read yet
  | decoded bits type target _ hfailed hroom hcall =>
    obtain ⟨hvolume, hle⟩ := h.volume_enqueue hdec hfailed bits (some true) hroom
    have hfill := hdec.enqueue bits type _ _ _ hcall (by rw [h.fill hfailed]; exact hle)
    rw [h.fill hfailed] at hfill
    have hcomplete := hfill.1.mp rfl
    refine ⟨?_, fun _ => hfill.2, fun _ => ?_, fun _ => ⟨⟨s.calls, bits, [], rfl, ?_, ?_⟩, rfl⟩⟩
    · dsimp only
      rw [hvolume]
      exact hle
    · dsimp only
      rw [hvolume]
      rfl
    · rw [hvolume]
      exact hcomplete
    · exact fun c hc => absurd hc List.not_mem_nil
  | readThrew _ target =>
    apply synced_failed rfl
    rw [volume_append]
    exact h.bound
  | undelivered target bits _ _ _ hcall =>
    exact h.read (some bits) (hdec.read _ _ _ hcall)
  | delivered target view bits _ _ _ _ _ hcall =>
    exact h.read (some bits) (hdec.read _ _ _ hcall)
  | clearThrew target bits =>
    apply synced_failed rfl
    change (volume (s.calls ++ ([.read (some bits)] ++ [.clear false]))).1 ≤ n
    rw [← List.append_assoc, volume_append, volume_append]
    exact h.bound
  -- reading and clearing in one request takes the shot back to the bits counted so far
  | consumed target cleared view bits _ hready _ _ _ hcall hclear =>
    obtain ⟨⟨pre, last, post, hcalls, hcount, hpost⟩, hzero⟩ := h.finished hready
    have hnot : s.shotState ≠ .failed := by
      rw [hready]
      decide
    have hvolume : volume (s.calls ++ [.read (some bits), .clear true]) = volume s.calls := by
      change volume (s.calls ++ ([.read (some bits)] ++ [.clear true])) = _
      rw [← List.append_assoc, volume_append, volume_append]
      rfl
    refine ⟨?_, fun _ => ?_, fun _ => ?_, fun hready => by cases hready⟩
    · rw [hvolume]
      exact h.bound
    · change fill cleared = s.acceptedSyndromes
      rw [hdec.clear _ _ hclear, hdec.read _ _ _ hcall, h.fill hnot]
    · rw [hvolume]
      exact h.count hnot
  | resetThrew _ target =>
    apply synced_failed rfl
    rw [volume_append]
    exact h.bound
  | reset target _ _ hcall =>
    have hvolume : volume (s.calls ++ [.reset true]) = (0, false) := volume_append ..
    refine ⟨?_, fun _ => hdec.reset _ _ hcall, fun _ => ?_, fun hready => by cases hready⟩
    · rw [hvolume]
      exact Nat.zero_le n
    · rw [hvolume]
      rfl

/-- A run keeps the counts. -/
theorem run_synced (hdec : PlainDecoder e n fill) (hs : Synced n fill s) (h : η) (rs : List Request) :
    Synced n fill (run e host s h rs).2.1 := by
  induction rs generalizing s h with
  | nil => exact hs
  | cons r rs ih => exact ih ((handle_served hdec.isGraph s host h r).synced hdec hs) _

/-! ## What is answered -/

/-- A request to a failed session fails, unless it is a reset that succeeds. -/
theorem Served.of_failed (hs : Served e s r resp s') (hfailed : s.shotState = .failed)
    (hreset : r.handler = .reset → resp.status ≠ .ok) :
    s'.shotState = .failed ∧ (r.handler ≠ .enqueue → resp.status ≠ .ok) ∧
      ∃ more, s'.calls = s.calls ++ more ∧ ∀ c ∈ more, c.isEnqueue = false := by
  cases hs with
  | refused hnot hstatus => exact ⟨hfailed, fun _ => hstatus, [], by simp, by simp⟩
  | failed hor => exact ⟨rfl, fun hnot => hor.resolve_left hnot, [], by simp, by simp⟩
  | enqueueThrew _ _ _ _ _ hnot => exact absurd hfailed hnot
  | enqueued _ _ _ _ hnot => exact absurd hfailed hnot
  | decoded _ _ _ _ hnot => exact absurd hfailed hnot
  | readThrew target _ hstatus =>
    exact ⟨rfl, fun _ => hstatus, [.read none], rfl, by simp [isEnqueue]⟩
  | undelivered _ _ _ _ hready =>
    rw [hfailed] at hready
    cases hready
  | delivered _ _ _ _ hready =>
    rw [hfailed] at hready
    cases hready
  | clearThrew target bits _ hstatus =>
    exact ⟨rfl, fun _ => hstatus, [.read (some bits), .clear false], rfl, by simp [isEnqueue]⟩
  | consumed _ _ _ _ _ hready =>
    rw [hfailed] at hready
    cases hready
  | resetThrew target _ hstatus =>
    exact ⟨rfl, fun _ => hstatus, [.reset false], rfl, by simp [isEnqueue]⟩
  | reset _ hhandler hstatus => exact absurd hstatus (hreset hhandler)

theorem staysFailed (hdec : e.isGraph = false) (hfailed : s.shotState = .failed) :
    StaysFailed e host s := by
  intro h rs
  induction rs generalizing s h with
  | nil =>
    intro _
    exact ⟨by simp [run], [], by simp [run], by simp⟩
  | cons r rs ih =>
    intro hreset
    have hzip : (r :: rs).zip (run e host s h (r :: rs)).1 = (r, (s.handle e host h r).1) ::
        rs.zip (run e host (s.handle e host h r).2.1 (s.handle e host h r).2.2 rs).1 := rfl
    rw [hzip] at hreset ⊢
    obtain ⟨hstate, hanswer, more, hcalls, hmore⟩ :=
      (handle_served hdec s host h r).of_failed hfailed (hreset _ (List.mem_cons_self ..))
    obtain ⟨hanswers, rest, hrun, hrest⟩ :=
      ih hstate _ fun p hp => hreset p (List.mem_cons_of_mem _ hp)
    refine ⟨fun p hp => ?_, more ++ rest, ?_, fun c hc => ?_⟩
    · rcases List.mem_cons.mp hp with rfl | hp
      · exact hanswer
      · exact hanswers p hp
    · change (run e host (s.handle e host h r).2.1 (s.handle e host h r).2.2 rs).2.1.calls = _
      rw [hrun, hcalls, List.append_assoc]
    · rcases List.mem_append.mp hc with hc | hc
      · exact hmore c hc
      · exact hrest c hc

/-! ## A request that is answered -/

theorem returnSize_lt {slot : Slot} {view : ResultView} (h : parseGetCorrections slot = some view) :
    view.returnSize.toNat < 2 ^ 63 := by
  obtain ⟨payload, -, rfl⟩ := Option.map_eq_some_iff.mp h
  have := int64_lt (field_lt payload 8 8)
  dsimp only
  omega

theorem Synced.servesFinished (hs : Synced n fill s) (hdec : e.isGraph = false) :
    ServesFinished e host n s := by
  intro h r hhandler hok
  have hserved := handle_served hdec s host h r
  generalize (s.handle e host h r).1 = resp at hserved hok ⊢
  generalize (s.handle e host h r).2.1 = s' at hserved
  cases hserved with
  | refused _ hstatus => exact absurd hok hstatus
  | failed hor =>
    rw [hhandler] at hor
    exact absurd hok (hor.resolve_left (by decide))
  | enqueueThrew _ _ _ _ henqueue => rw [hhandler] at henqueue; cases henqueue
  | enqueued _ _ _ henqueue => rw [hhandler] at henqueue; cases henqueue
  | decoded _ _ _ henqueue => rw [hhandler] at henqueue; cases henqueue
  | readThrew _ _ hstatus => exact absurd hok hstatus
  | undelivered _ _ _ hstatus => exact absurd hok hstatus
  | delivered _ view bits _ hready hparse hsize hresult hcall =>
    refine ⟨(hs.finished hready).1, view, bits, hparse, hsize, by rw [hcall], ?_⟩
    rw [hresult]
    exact carries_packBits bits (returnSize_lt hparse)
  | clearThrew _ _ _ hstatus => exact absurd hok hstatus
  | consumed _ _ view bits _ hready hparse hsize hresult hcall =>
    refine ⟨(hs.finished hready).1, view, bits, hparse, hsize, by rw [hcall], ?_⟩
    rw [hresult]
    exact carries_packBits bits (returnSize_lt hparse)
  | resetThrew _ hreset => rw [hhandler] at hreset; cases hreset
  | reset _ hreset => rw [hhandler] at hreset; cases hreset

/-- After any requests of any content: the volume is not overrun, a failure stays until a reset succeeds,
and an OK answers with the corrections of the volume completed last. -/
theorem serves_finished (host : Host η) (h : η) (hdec : PlainDecoder e n fill)
    (hfresh : Fresh fill s) (rs : List Request) :
    (volume (run e host s h rs).2.1.calls).1 ≤ n ∧
      ((run e host s h rs).2.1.shotState = .failed → StaysFailed e host (run e host s h rs).2.1) ∧
      ServesFinished e host n (run e host s h rs).2.1 := by
  have hsynced : Synced n fill (run e host s h rs).2.1 := run_synced hdec hfresh.synced h rs
  exact ⟨hsynced.bound, staysFailed hdec.isGraph, hsynced.servesFinished hdec.isGraph⟩

end DecodingSession

/-! ## A decoder of two bits -/

namespace SessionExample

open DecodingSession

/-- A decoder of volume 2, whose one observable is the parity of its syndrome. -/
def parity : Endpoint (Nat × UInt8) where
  isGraph := false
  numMsynPerDecode := 2
  numObservables := 1
  logicalWidth := 0
  enqueueSyndrome bits _ t :=
    (.ok (t.1 + bits.length = 2),
      (if t.1 + bits.length = 2 then 0 else t.1 + bits.length, bits.foldl (· ^^^ ·) t.2))
  obsCorrections t := (.ok (some [t.2]), t)
  streamingResult t := (.ok .empty, t)
  clearCorrections t := (.ok (), (t.1, 0))
  resetDecoder _ := (.ok (), (0, 0))
  mappingTable id := if id = 0 then some .bulk else none

def host : Host Unit := ⟨fun h => (.ok (), h), none⟩

def session : DecodingSession (Nat × UInt8) := ⟨(0, 0), .collecting, 0, .empty, []⟩

theorem session_fresh : Fresh Prod.fst session := ⟨rfl, rfl, rfl, rfl⟩

theorem parity_plain : PlainDecoder parity 2 Prod.fst where
  isGraph := rfl
  volume := rfl
  enqueue := by
    rintro bits type t did t' hcall -
    cases hcall
    simp
  read := by
    rintro t bits t' hcall
    cases hcall
    rfl
  clear := by
    rintro t t' hcall
    cases hcall
    rfl
  reset := by
    rintro t t' hcall
    cases hcall
    rfl

def word (b : UInt8) : List UInt8 := [b, 0, 0, 0, 0, 0, 0, 0]

def enqueueTwo : Request :=
  ⟨.enqueue, ⟨true, enqueueSyndromesFunctionId, 33, 1, 0⟩, word 0 ++ word 0 ++ word 0 ++ word 2 ++ [1]⟩

def readOne : Request :=
  ⟨.getCorrections, ⟨true, getCorrectionsFunctionId, 17, 2, 0⟩, word 0 ++ word 1 ++ [1]⟩

theorem serves_finished_parity :
    (TargetCall.volume (run parity host session () [enqueueTwo]).2.1.calls).1 ≤ 2 ∧
      ((run parity host session () [enqueueTwo]).2.1.shotState = .failed →
        StaysFailed parity host (run parity host session () [enqueueTwo]).2.1) ∧
      ServesFinished parity host 2 (run parity host session () [enqueueTwo]).2.1 :=
  serves_finished host () parity_plain session_fresh [enqueueTwo]

example : (run parity host session () [enqueueTwo, readOne, readOne]).1.map
    (fun r => (r.status, r.result)) = [(.ok, []), (.ok, [1]), (.notReady, [])] := by decide

end SessionExample

end CudaqQec.Realtime
