import CudaqQec.Decoder.Projection
import CudaqQec.Lib.Parity

/-!
# Realtime decoding

`enqueue_syndrome` appends measurements to a buffer and reduces every detector as soon as the columns
it reads have arrived, along an order that is sorted by how many columns that takes. A full buffer is
decoded and the cursors go back to the start; the buffers keep what they hold.

* `Receiving`: what a decoder that is handed a shot holds after a prefix of it.
* `enqueue_shots`: shots cut into calls in any way.
-/

namespace CudaqQec

open Checked SparseBinaryMatrix Toggle

/-! ## State -/

/-- Where the detector layers of a streaming decoder start, from `initialize_streaming_layout`. -/
structure StreamingLayout where
  hasFirstRoundDetectors : Bool
  detectorLayerOffsets : List Nat

/-- `rt_impl`, as far as a call changes it. -/
structure RtState where
  msynBufferIndex : Nat
  msynBuffer : List UInt8
  corrections : List Bool
  persistentDetectorBuffer : List UInt8
  detectorReadyCursor : Nat
  currentRound : Nat
  detectorLayerIndex : Nat
  deriving DecidableEq

def RtState.restart (st : RtState) (corrections : List Bool) : RtState :=
  { st with
    corrections := corrections
    msynBufferIndex := 0
    currentRound := 0
    detectorLayerIndex := 0
    detectorReadyCursor := 0 }

/-- What a call does: whether it returned true, and the syndrome it handed to `decode()`. -/
structure EnqueueResult where
  didDecode : Bool
  decoded : Option (List SoftValue)
  deriving DecidableEq

def xorColumns (buffer : List UInt8) (row : List Nat) : UInt8 :=
  row.foldl (fun value column => value ^^^ buffer.getD column 0) 0

/-- `convert_vec_hard_to_soft`. -/
def hardToSoft (bits : List UInt8) : List SoftValue :=
  bits.map fun b => if b ≠ 0 then .finite 1 else .finite 0

namespace DecoderData

variable (d : DecoderData)

def freshState : RtState where
  msynBufferIndex := 0
  msynBuffer := List.replicate d.numMsynPerDecode 0
  corrections := List.replicate d.init.numObservables false
  persistentDetectorBuffer := List.replicate d.init.numDetectors 0
  detectorReadyCursor := 0
  currentRound := 0
  detectorLayerIndex := 0

/-- The loop of `resolve_ready_detectors` over what is left of the order. -/
@[grind =] def resolveFrom (buffer : List UInt8) (available : Nat) :
    List (Nat × Nat) → List UInt8 × Nat → List UInt8 × Nat
  | [], st => st
  | (needed, detector) :: order, (detectors, cursor) =>
    if needed ≤ available then
      resolveFrom buffer available order
        (detectors.set detector (xorColumns buffer (d.measurementToDetectors.getD detector [])),
          cursor + 1)
    else (detectors, cursor)

def resolveReadyDetectors (st : RtState) (available : Nat) : RtState :=
  let out := d.resolveFrom st.msynBuffer available (d.detectorReadyOrder.drop st.detectorReadyCursor)
    (st.persistentDetectorBuffer, st.detectorReadyCursor)
  { st with persistentDetectorBuffer := out.1, detectorReadyCursor := out.2 }

def emitLayer (layout : StreamingLayout) (st : RtState) : RtState :=
  let first := layout.detectorLayerOffsets.getD st.detectorLayerIndex 0
  let width := layout.detectorLayerOffsets.getD (st.detectorLayerIndex + 1) 0 - first
  { st with
    detectorLayerIndex := st.detectorLayerIndex + 1
    persistentDetectorBuffer := (List.range width).map fun j =>
      xorColumns st.msynBuffer (d.measurementToDetectors.getD (first + j) []) }

def expectedResultSize : Nat :=
  match d.output with
  | .errors => d.blockSize
  | .observables => d.init.numObservables

def resultTypeName : String :=
  match d.output with
  | .errors => "errors"
  | .observables => "observables"

/-- Decode the detectors of a state and take the result in. -/
def decodeNow (streaming : Bool) (decode : List SoftValue → List SoftValue) (st : RtState) :
    Except Error (RtState × EnqueueResult) := do
  let syndrome := hardToSoft st.persistentDetectorBuffer
  let values := decode syndrome
  if streaming ∧ values = [] then return (st, ⟨false, some syndrome⟩)
  throwIf (values.length ≠ d.expectedResultSize)
    (.runtimeError ("Decoder result size (" ++ toString values.length ++
      ") does not match expected size (" ++ toString d.expectedResultSize ++ ") for result type " ++
      d.resultTypeName))
  let corrections ← d.accumulate values st.corrections
  return (st.restart corrections, ⟨true, some syndrome⟩)

/-- `enqueue_syndrome`. A call that does not fit is ignored. -/
def enqueueSyndrome (streaming : Option StreamingLayout) (decode : List SoftValue → List SoftValue)
    (st : RtState) (syndrome : List UInt8) : Except Error (RtState × EnqueueResult) :=
  if st.msynBuffer.length < st.msynBufferIndex + syndrome.length then .ok (st, ⟨false, none⟩)
  else
    let st := { st with
      currentRound := st.currentRound + 1
      msynBuffer := st.msynBuffer.take st.msynBufferIndex ++ syndrome ++
        st.msynBuffer.drop (st.msynBufferIndex + syndrome.length)
      msynBufferIndex := st.msynBufferIndex + syndrome.length }
    match streaming with
    | none =>
      let st := d.resolveReadyDetectors st st.msynBufferIndex
      if st.msynBufferIndex = st.msynBuffer.length then
        -- A full buffer makes every detector that is left resolvable.
        d.decodeNow false decode (d.resolveReadyDetectors st d.numMsynPerDecode)
      else .ok (st, ⟨false, none⟩)
    | some layout =>
      if 2 ≤ st.currentRound ∨ st.currentRound = 1 ∧ layout.hasFirstRoundDetectors then
        d.decodeNow true decode (d.emitLayer layout st)
      else .ok (st, ⟨false, none⟩)

@[grind =] def enqueueAll (streaming : Option StreamingLayout) (decode : List SoftValue → List SoftValue) :
    RtState → List (List UInt8) → Except Error (RtState × List EnqueueResult)
  | st, [] => .ok (st, [])
  | st, call :: calls => do
    let (st, result) ← d.enqueueSyndrome streaming decode st call
    let (st, results) ← enqueueAll streaming decode st calls
    return (st, result :: results)

end DecoderData

/-! ## Columns a detector reads -/

private theorem foldl_columnsNeeded (row : List Nat) (needed : Nat) :
    row.foldl (fun needed column => max needed (column + 1)) needed = max needed (columnsNeeded row) := by
  induction row generalizing needed with
  | nil => simp [columnsNeeded]
  | cons column row ih =>
    rw [columnsNeeded, List.foldl_cons, List.foldl_cons, ih, ih (max 0 _), Nat.zero_max,
      Nat.max_assoc]

theorem columnsNeeded_cons (column : Nat) (row : List Nat) :
    columnsNeeded (column :: row) = max (column + 1) (columnsNeeded row) := by
  rw [columnsNeeded, List.foldl_cons, foldl_columnsNeeded, Nat.zero_max]

theorem columnsNeeded_le_iff {row : List Nat} {n : Nat} :
    columnsNeeded row ≤ n ↔ ∀ column ∈ row, column < n := by
  induction row with
  | nil => simp [columnsNeeded]
  | cons column row ih =>
    rw [columnsNeeded_cons, Nat.max_le, ih]
    simp only [List.mem_cons, forall_eq_or_imp]
    rfl

/-- A detector does not see what it does not read. -/
theorem xorColumns_congr {buffer buffer' : List UInt8} {row : List Nat}
    (h : ∀ column ∈ row, buffer.getD column 0 = buffer'.getD column 0) :
    xorColumns buffer row = xorColumns buffer' row := by
  have key : ∀ value : UInt8, row.foldl (fun value column => value ^^^ buffer.getD column 0) value =
      row.foldl (fun value column => value ^^^ buffer'.getD column 0) value := by
    induction row with
    | nil => exact fun _ => rfl
    | cons column row ih =>
      intro value
      rw [List.foldl_cons, List.foldl_cons, h column (by simp)]
      exact ih (fun c hc => h c (by simp [hc])) _
  exact key 0

/-- Every detector stands in the order, with the columns it needs. -/
theorem mem_readyOrder {rows : List (List Nat)} {p : Nat × Nat} :
    p ∈ readyOrder rows ↔ p.2 < rows.length ∧ p.1 = columnsNeeded (rows.getD p.2 []) := by
  rw [readyOrder, List.mem_insertionSort, List.mem_map]
  constructor
  · rintro ⟨⟨row, i⟩, hmem, rfl⟩
    obtain ⟨-, hi, hget⟩ := List.mem_zipIdx hmem
    have hlt : i < rows.length := by omega
    refine ⟨hlt, ?_⟩
    simp only [Nat.sub_zero] at hget
    rw [List.getD_eq_getElem?_getD, List.getElem?_eq_getElem hlt, Option.getD_some, ← hget]
  · rintro ⟨hlt, heq⟩
    refine ⟨(rows[p.2], p.2), ?_, ?_⟩
    · rw [List.mem_iff_getElem]
      exact ⟨p.2, by simpa using hlt, by simp⟩
    · rw [List.getD_eq_getElem?_getD, List.getElem?_eq_getElem hlt, Option.getD_some] at heq
      exact Prod.ext heq.symm rfl

/-! ## Resolving detectors -/

namespace DecoderData

variable {d : DecoderData} {buffer detectors : List UInt8}

/-- A detector of the buffer holds the XOR of its measurements. -/
def Holds (d : DecoderData) (buffer detectors : List UInt8) (detector : Nat) : Prop :=
  detectors.getD detector 0 = xorColumns buffer (d.measurementToDetectors.getD detector [])

/-- Reducing one detector keeps those that are reduced. -/
theorem Holds.set {detector : Nat} (h : Holds d buffer detectors detector) (i : Nat) :
    Holds d buffer
      (detectors.set i (xorColumns buffer (d.measurementToDetectors.getD i []))) detector := by
  unfold Holds at h ⊢
  rw [List.getD_eq_getElem?_getD, List.getElem?_set]
  by_cases hi : i = detector
  · subst hi
    by_cases hlt : i < detectors.length
    · simp [hlt]
    · simpa [hlt, List.getD_eq_getElem?_getD] using h
  · simpa [hi, List.getD_eq_getElem?_getD] using h

theorem holds_set_self {i : Nat} (hi : i < detectors.length) :
    Holds d buffer (detectors.set i (xorColumns buffer (d.measurementToDetectors.getD i []))) i := by
  simp [Holds, List.getD_eq_getElem?_getD, hi]

/-- What the loop does: it reduces a first part of the order, all of which is available, and stops
only at a detector that is not. -/
theorem resolveFrom_spec (available : Nat) (order : List (Nat × Nat)) (cursor : Nat)
    (hlt : ∀ p ∈ order, p.2 < detectors.length) :
    ∃ k ≤ order.length,
      (d.resolveFrom buffer available order (detectors, cursor)).2 = cursor + k ∧
      (d.resolveFrom buffer available order (detectors, cursor)).1.length = detectors.length ∧
      (∀ i, Holds d buffer detectors i →
        Holds d buffer (d.resolveFrom buffer available order (detectors, cursor)).1 i) ∧
      (∀ p ∈ order.take k, p.1 ≤ available ∧
        Holds d buffer (d.resolveFrom buffer available order (detectors, cursor)).1 p.2) ∧
      ((∀ p ∈ order, p.1 ≤ available) → k = order.length) := by
  induction order generalizing detectors cursor with
  | nil => exact ⟨0, le_rfl, rfl, rfl, fun _ h => h, by simp, fun _ => rfl⟩
  | cons p order ih =>
    obtain ⟨needed, detector⟩ := p
    rw [resolveFrom]
    by_cases ha : needed ≤ available
    · rw [if_pos ha]
      have hdet : detector < detectors.length := hlt _ (List.mem_cons_self ..)
      obtain ⟨k, hk, h1, h2, h3, h4, h5⟩ := @ih (detectors.set detector
          (xorColumns buffer (d.measurementToDetectors.getD detector []))) (cursor + 1)
        (fun p hp => by simpa using hlt p (List.mem_cons_of_mem _ hp))
      refine ⟨k + 1, by simpa using hk, by rw [h1]; omega, by rw [h2, List.length_set],
        fun i hi => h3 i (hi.set detector), ?_, ?_⟩
      · intro p hp
        rw [List.take_succ_cons] at hp
        rcases List.mem_cons.mp hp with rfl | hp
        · exact ⟨ha, h3 _ (holds_set_self hdet)⟩
        · exact h4 p hp
      · intro hall
        rw [h5 fun p hp => hall p (List.mem_cons_of_mem _ hp), List.length_cons]
    · rw [if_neg ha]
      refine ⟨0, Nat.zero_le _, rfl, rfl, fun _ h => h, by simp, fun hall => ?_⟩
      exact absurd (hall _ (List.mem_cons_self ..)) ha

/-- A state in which every detector before the cursor is reduced, from no more than `available`
columns. -/
structure Resolved (d : DecoderData) (available : Nat) (st : RtState) : Prop where
  cursor_le : st.detectorReadyCursor ≤ d.detectorReadyOrder.length
  holds : ∀ p ∈ d.detectorReadyOrder.take st.detectorReadyCursor, p.1 ≤ available ∧
    Holds d st.msynBuffer st.persistentDetectorBuffer p.2

/-- `resolve_ready_detectors` keeps what is reduced and, where everything is available, reduces the
rest. -/
theorem resolveReadyDetectors_spec {available : Nat} {st : RtState} (h : Resolved d available st)
    (hlt : ∀ p ∈ d.detectorReadyOrder, p.2 < st.persistentDetectorBuffer.length) :
    Resolved d available (d.resolveReadyDetectors st available) ∧
      (d.resolveReadyDetectors st available).persistentDetectorBuffer.length =
        st.persistentDetectorBuffer.length ∧
      ((∀ p ∈ d.detectorReadyOrder, p.1 ≤ available) →
        (d.resolveReadyDetectors st available).detectorReadyCursor =
          d.detectorReadyOrder.length) := by
  obtain ⟨k, hk, h1, h2, h3, h4, h5⟩ := @resolveFrom_spec d st.msynBuffer st.persistentDetectorBuffer
    available (d.detectorReadyOrder.drop st.detectorReadyCursor) st.detectorReadyCursor
    (fun p hp => hlt p (List.mem_of_mem_drop hp))
  have hcur := h.cursor_le
  rw [List.length_drop] at hk h5
  refine ⟨⟨?_, ?_⟩, h2, fun hall => ?_⟩
  · simp only [resolveReadyDetectors, h1]
    omega
  · intro p hp
    simp only [resolveReadyDetectors, h1, List.take_add] at hp ⊢
    rcases List.mem_append.mp hp with hp | hp
    · exact ⟨(h.holds p hp).1, h3 _ (h.holds p hp).2⟩
    · exact h4 p hp
  · have := h5 fun p hp => hall p (List.mem_of_mem_drop hp)
    simp only [resolveReadyDetectors, h1]
    omega

theorem enqueueAll_append {streaming : Option StreamingLayout}
    {decode : List SoftValue → List SoftValue} {st st₁ st₂ : RtState} {a b : List (List UInt8)}
    {ra rb : List EnqueueResult} (ha : d.enqueueAll streaming decode st a = .ok (st₁, ra))
    (hb : d.enqueueAll streaming decode st₁ b = .ok (st₂, rb)) :
    d.enqueueAll streaming decode st (a ++ b) = .ok (st₂, ra ++ rb) := by
  induction a generalizing st ra with
  | nil =>
    cases ha
    exact hb
  | cons call a ih =>
    simp only [enqueueAll, bind_eq_ok, Prod.exists] at ha
    obtain ⟨st', r, hcall, st'', rs, hrest, hok⟩ := ha
    cases hok
    rw [List.cons_append, enqueueAll, hcall, ok_bind]
    simp only [ih hrest, ok_bind]
    rfl

end DecoderData

/-! ## One shot -/

namespace Decoder

variable (d : Decoder) {D : SparseBinaryMatrix}

theorem measurementToDetectors_eq (hD : d.init.D = some D) :
    d.measurementToDetectors = D.toNestedCsr ∧ d.numMsynPerDecode = D.numCols ∧
      d.detectorReadyOrder = readyOrder D.toNestedCsr := by
  have h := d.built
  simp only [buildDecoder, bind_eq_ok] at h
  obtain ⟨map, -, hok⟩ := h
  have hd := Except.ok.inj hok
  rw [← hd]
  simp only [hD, Option.map_some, Option.getD_some, and_self]

/-- A decoder's detectors are the rows of its measurement map. -/
theorem length_rows (hD : d.init.D = some D) : D.toNestedCsr.length = d.init.numDetectors := by
  rw [length_toNestedCsr, (d.init.d_shape D hD).2]

/-- What a decoder holds after the measurements `done` of a shot. -/
structure Receiving (done : List UInt8) (st : RtState) : Prop where
  buffer : st.msynBuffer.length = d.numMsynPerDecode
  index : st.msynBufferIndex = done.length
  measured : st.msynBuffer.take done.length = done
  detectors : st.persistentDetectorBuffer.length = d.init.numDetectors
  corrections : st.corrections.length = d.init.numObservables
  resolved : DecoderData.Resolved d.toDecoderData done.length st

theorem receiving_fresh : d.Receiving [] d.freshState where
  buffer := by simp [DecoderData.freshState]
  index := rfl
  measured := rfl
  detectors := by simp [DecoderData.freshState]
  corrections := by simp [DecoderData.freshState]
  resolved := ⟨Nat.zero_le _, by simp [DecoderData.freshState]⟩

/-- The syndrome of a shot: detector `i` is the XOR of the measurements in row `i`. -/
def shotSyndrome (D : SparseBinaryMatrix) (shot : List UInt8) : List SoftValue :=
  hardToSoft (D.toNestedCsr.map (xorColumns shot))

def resultFlips (values : List SoftValue) : List Bool :=
  match d.output with
  | .observables =>
    (List.range d.init.numObservables).map fun i => (DecoderData.valueAt values i).nonzero
  | .errors => d.flipsBy SoftValue.nonzero values

def append (st : RtState) (call : List UInt8) : RtState :=
  { st with
    currentRound := st.currentRound + 1
    msynBuffer := st.msynBuffer.take st.msynBufferIndex ++ call ++
      st.msynBuffer.drop (st.msynBufferIndex + call.length)
    msynBufferIndex := st.msynBufferIndex + call.length }

variable {d} {done call : List UInt8} {st : RtState}

/-- New measurements stand behind everything that a reduced detector reads. -/
theorem Receiving.append (hD : d.init.D = some D) (h : d.Receiving done st)
    (hfit : (done ++ call).length ≤ d.numMsynPerDecode) :
    d.Receiving (done ++ call) (append st call) := by
  rw [List.length_append] at hfit
  have hb := h.buffer
  have hbuf : (Decoder.append st call).msynBuffer =
      (done ++ call) ++ st.msynBuffer.drop (done.length + call.length) := by
    simp only [Decoder.append, h.index, h.measured]
  constructor
  case buffer =>
    rw [hbuf, List.length_append, List.length_append, List.length_drop]
    omega
  case index => simp [Decoder.append, h.index]
  case measured => rw [hbuf, List.take_left]
  case detectors => exact h.detectors
  case corrections => exact h.corrections
  case resolved =>
    refine ⟨h.resolved.cursor_le, fun p hp => ?_⟩
    obtain ⟨hle, hold⟩ := h.resolved.holds p hp
    refine ⟨by rw [List.length_append]; omega, hold.trans ?_⟩
    obtain ⟨hrows, -, horder⟩ := d.measurementToDetectors_eq hD
    have hmem := List.mem_of_mem_take hp
    rw [horder, mem_readyOrder] at hmem
    rw [hmem.2, ← hrows, columnsNeeded_le_iff] at hle
    apply xorColumns_congr
    intro column hcol
    have hlt := hle column hcol
    have htake : st.msynBuffer.getD column 0 = done.getD column 0 := by
      conv_rhs => rw [← h.measured]
      simp [List.getD_eq_getElem?_getD, hlt]
    rw [htake, hbuf, getD_append_ite, List.length_append, if_pos (by omega), getD_append_ite,
      if_pos hlt]

theorem Receiving.mem_order (hD : d.init.D = some D) (h : d.Receiving done st) :
    ∀ p ∈ d.detectorReadyOrder, p.2 < st.persistentDetectorBuffer.length := by
  intro p hp
  rw [(d.measurementToDetectors_eq hD).2.2, mem_readyOrder] at hp
  rw [h.detectors, ← d.length_rows hD]
  exact hp.1

theorem Receiving.resolve (hD : d.init.D = some D) (h : d.Receiving done st) :
    d.Receiving done (d.resolveReadyDetectors st done.length) where
  buffer := h.buffer
  index := h.index
  measured := h.measured
  detectors := (DecoderData.resolveReadyDetectors_spec h.resolved (h.mem_order hD)).2.1.trans
    h.detectors
  corrections := h.corrections
  resolved := (DecoderData.resolveReadyDetectors_spec h.resolved (h.mem_order hD)).1

/-- With the whole shot in the buffer, every detector is reduced. -/
theorem Receiving.syndrome (hD : d.init.D = some D) (h : d.Receiving done st)
    (hfull : done.length = d.numMsynPerDecode) :
    hardToSoft (d.resolveReadyDetectors st done.length).persistentDetectorBuffer =
      shotSyndrome D done := by
  obtain ⟨hrows, hcols, horder⟩ := d.measurementToDetectors_eq hD
  obtain ⟨hres, hlen, hcur⟩ := DecoderData.resolveReadyDetectors_spec h.resolved (h.mem_order hD)
  have hneed : ∀ p ∈ d.detectorReadyOrder, p.1 ≤ done.length := by
    intro p hp
    rw [horder, mem_readyOrder] at hp
    rw [hp.2, columnsNeeded_le_iff, hfull, hcols]
    intro column hcol
    exact D.mem_toNestedCsr_lt (getD_mem hcol) hcol
  have hbuf : st.msynBuffer = done := by
    rw [← h.measured, hfull, ← h.buffer, List.take_length]
  rw [shotSyndrome]
  congr 1
  apply List.ext_getElem
  · rw [hlen, h.detectors, List.length_map, d.length_rows hD]
  intro i hi hi'
  rw [List.length_map] at hi'
  have hmem : (columnsNeeded (D.toNestedCsr.getD i []), i) ∈ d.detectorReadyOrder := by
    rw [horder, mem_readyOrder]
    exact ⟨hi', rfl⟩
  have hholds := (hres.holds _ (by rw [hcur hneed, List.take_length]; exact hmem)).2
  unfold DecoderData.Holds at hholds
  have hsame : (d.resolveReadyDetectors st done.length).msynBuffer = done := hbuf
  rw [hsame, hrows, List.getD_eq_getElem?_getD, List.getD_eq_getElem?_getD,
    List.getElem?_eq_getElem hi, List.getElem?_eq_getElem hi'] at hholds
  rw [List.getElem_map]
  exact hholds

theorem accumulate_eq (hmodel : d.output = .errors → d.init.hasObservableModel = true)
    {values : List SoftValue} (hlen : values.length = d.expectedResultSize)
    {corrections : List Bool} (hc : corrections.length = d.init.numObservables) :
    d.accumulate values corrections = .ok (xorBits corrections (d.resultFlips values)) := by
  cases hout : d.output with
  | errors =>
    rw [DecoderData.expectedResultSize, hout] at hlen
    rw [d.accumulate_errors hout (hmodel hout) hlen hc, resultFlips, hout]
  | observables =>
    rw [DecoderData.accumulate, hout]
    simp only
    have hrow : ∀ i (bits : List Bool),
        (if (DecoderData.valueAt values i).nonzero then flipAt bits i else bits) =
          [i].foldl (fun bits column =>
            if (DecoderData.valueAt values column).nonzero then flipAt bits i else bits) bits :=
      fun _ _ => rfl
    simp only [hrow]
    rw [foldl_flipAt_of_rows (fun column => (DecoderData.valueAt values column).nonzero)
      (fun i => [i]), flipAll_eq, hc, flipped, resultFlips, hout]
    refine congrArg (fun bits => Except.ok (xorBits corrections bits))
      (List.map_congr_left fun k hk => ?_)
    rw [count_flatMap_replicate _ (List.mem_range.mp hk)]
    cases hv : (DecoderData.valueAt values k).nonzero <;> simp [hv]

variable {decode : List SoftValue → List SoftValue}

theorem enqueue_partial (hD : d.init.D = some D) (h : d.Receiving done st)
    (hroom : (done ++ call).length < d.numMsynPerDecode) :
    ∃ st', d.enqueueSyndrome none decode st call = .ok (st', ⟨false, none⟩) ∧
      d.Receiving (done ++ call) st' ∧ st'.corrections = st.corrections := by
  have happ := (h.append hD hroom.le).resolve hD
  have hindex : (Decoder.append st call).msynBufferIndex = (done ++ call).length := by
    simp [Decoder.append, h.index]
  refine ⟨_, ?_, happ, rfl⟩
  have hfit : ¬ st.msynBuffer.length < st.msynBufferIndex + call.length := by
    rw [h.buffer, h.index]
    rw [List.length_append] at hroom
    omega
  rw [DecoderData.enqueueSyndrome, if_neg hfit]
  change (if (Decoder.append st call).msynBufferIndex = (Decoder.append st call).msynBuffer.length
    then _ else Except.ok (d.resolveReadyDetectors (Decoder.append st call)
      (Decoder.append st call).msynBufferIndex, _)) = _
  have hbuf := (h.append hD hroom.le).buffer
  rw [if_neg (by omega), hindex]

/-- Decoding takes the result in and starts over; the buffers keep what they hold. -/
theorem Receiving.decodeNow (hmodel : d.output = .errors → d.init.hasObservableModel = true)
    (hsize : ∀ s, (decode s).length = d.expectedResultSize) (h : d.Receiving done st) :
    ∃ st', d.decodeNow false decode st =
        .ok (st', ⟨true, some (hardToSoft st.persistentDetectorBuffer)⟩) ∧
      d.Receiving [] st' ∧
      st'.corrections = xorBits st.corrections
        (d.resultFlips (decode (hardToSoft st.persistentDetectorBuffer))) := by
  have hacc := accumulate_eq hmodel (hsize (hardToSoft st.persistentDetectorBuffer)) h.corrections
  have hlen : (d.resultFlips (decode (hardToSoft st.persistentDetectorBuffer))).length =
      d.init.numObservables := by
    unfold resultFlips
    split <;> simp [DecoderData.flipsBy]
  refine ⟨st.restart (xorBits st.corrections
    (d.resultFlips (decode (hardToSoft st.persistentDetectorBuffer)))), ?_, ?_, rfl⟩
  · unfold DecoderData.decodeNow
    simp only [Bool.false_eq_true, false_and, if_false]
    rw [throwIf_of_not (by simp [hsize]), ok_bind, hacc]
    rfl
  · exact {
      buffer := h.buffer
      index := rfl
      measured := rfl
      detectors := h.detectors
      corrections := by
        rw [RtState.restart, length_xorBits (h.corrections.trans hlen.symm), h.corrections]
      resolved := ⟨Nat.zero_le _, by simp [RtState.restart]⟩ }

/-- The call that fills the buffer. -/
theorem enqueue_last (hD : d.init.D = some D)
    (hmodel : d.output = .errors → d.init.hasObservableModel = true)
    (hsize : ∀ s, (decode s).length = d.expectedResultSize) (h : d.Receiving done st)
    (hfull : (done ++ call).length = d.numMsynPerDecode) :
    ∃ st', d.enqueueSyndrome none decode st call =
        .ok (st', ⟨true, some (shotSyndrome D (done ++ call))⟩) ∧
      d.Receiving [] st' ∧
      st'.corrections = xorBits st.corrections
        (d.resultFlips (decode (shotSyndrome D (done ++ call)))) := by
  have happ := h.append hD hfull.le
  have hres := happ.resolve hD
  have hsyn := hres.syndrome hD hfull
  obtain ⟨st', hdec, hst, hcor⟩ := (hres.resolve hD).decodeNow hmodel hsize
  rw [hsyn] at hdec hcor
  refine ⟨st', ?_, hst, hcor⟩
  have hindex : (Decoder.append st call).msynBufferIndex = (done ++ call).length := happ.index
  have hfit : ¬ st.msynBuffer.length < st.msynBufferIndex + call.length := by
    rw [h.buffer, h.index]
    rw [List.length_append] at hfull
    omega
  rw [DecoderData.enqueueSyndrome, if_neg hfit]
  change (if (Decoder.append st call).msynBufferIndex = (Decoder.append st call).msynBuffer.length
    then d.decodeNow false decode (d.resolveReadyDetectors (d.resolveReadyDetectors
      (Decoder.append st call) (Decoder.append st call).msynBufferIndex) d.numMsynPerDecode)
    else _) = _
  rw [if_pos (by rw [hindex, happ.buffer, hfull]), hindex, ← hfull]
  exact hdec

/-! ## Shots -/

/-- What the calls of a shot do: only the last one decodes. -/
def shotResults (D : SparseBinaryMatrix) (shot : List UInt8) (calls : Nat) : List EnqueueResult :=
  List.replicate (calls - 1) ⟨false, none⟩ ++ [⟨true, some (shotSyndrome D shot)⟩]

/-- The rest of a shot, in calls of positive length. -/
theorem enqueue_calls (hD : d.init.D = some D)
    (hmodel : d.output = .errors → d.init.hasObservableModel = true)
    (hsize : ∀ s, (decode s).length = d.expectedResultSize) (h : d.Receiving done st)
    (calls : List (List UInt8)) (hpos : ∀ c ∈ calls, c ≠ []) (hne : calls ≠ [])
    (hfull : (done ++ calls.flatten).length = d.numMsynPerDecode) :
    ∃ st', d.enqueueAll none decode st calls =
        .ok (st', shotResults D (done ++ calls.flatten) calls.length) ∧
      d.Receiving [] st' ∧
      st'.corrections = xorBits st.corrections
        (d.resultFlips (decode (shotSyndrome D (done ++ calls.flatten)))) := by
  induction calls generalizing done st with
  | nil => exact absurd rfl hne
  | cons call calls ih =>
    rw [List.flatten_cons, ← List.append_assoc] at hfull ⊢
    rw [DecoderData.enqueueAll]
    cases calls with
    | nil =>
      rw [List.flatten_nil, List.append_nil] at hfull ⊢
      obtain ⟨st', hcall, hst, hcor⟩ := enqueue_last hD hmodel hsize h hfull
      refine ⟨st', ?_, hst, hcor⟩
      rw [hcall]
      rfl
    | cons next calls =>
      have hnext : next ≠ [] := hpos next (by simp)
      have hroom : (done ++ call).length < d.numMsynPerDecode := by
        have := List.length_pos_iff.mpr hnext
        rw [← hfull]
        simp only [List.flatten_cons, List.length_append]
        omega
      obtain ⟨st₁, hcall, hst₁, hcor₁⟩ := enqueue_partial hD h hroom
      obtain ⟨st', hrest, hst, hcor⟩ := ih hst₁ (fun c hc => hpos c (by simp [hc])) (by simp) hfull
      refine ⟨st', ?_, hst, hcor.trans (by rw [hcor₁])⟩
      rw [hcall, ok_bind]
      simp only [hrest, ok_bind]
      rfl

end Decoder

structure CutShot (n : Nat) where
  shot : List UInt8
  calls : List (List UInt8)
  length : shot.length = n
  cut : calls.flatten = shot
  pos : ∀ call ∈ calls, call ≠ []

def correctionsAfter (d : Decoder) (D : SparseBinaryMatrix) (decode : List SoftValue → List SoftValue)
    (shots : List (CutShot D.numCols)) (corrections : List Bool) : List Bool :=
  shots.foldl (fun bits s => xorBits bits (d.resultFlips (decode (Decoder.shotSyndrome D s.shot))))
    corrections

/-- Shots cut into calls in any way: each is decoded once, by the call that completes it, with the
syndrome of its own measurements; that call alone returns true, and the corrections are the XOR of
what the results flip. -/
theorem enqueue_shots (d : Decoder) (D : SparseBinaryMatrix) (hD : d.init.D = some D)
    (hn : 0 < D.numCols) (hmodel : d.output = .errors → d.init.hasObservableModel = true)
    (decode : List SoftValue → List SoftValue)
    (hsize : ∀ s, (decode s).length = d.expectedResultSize) (shots : List (CutShot D.numCols)) :
    ∃ st, d.enqueueAll none decode d.freshState (shots.flatMap (·.calls)) =
        .ok (st, shots.flatMap fun s => Decoder.shotResults D s.shot s.calls.length) ∧
      st.corrections = correctionsAfter d D decode shots
        (List.replicate d.init.numObservables false) := by
  have key : ∀ st, d.Receiving [] st →
      ∃ st', d.enqueueAll none decode st (shots.flatMap (·.calls)) =
          .ok (st', shots.flatMap fun s => Decoder.shotResults D s.shot s.calls.length) ∧
        st'.corrections = correctionsAfter d D decode shots st.corrections := by
    induction shots with
    | nil => exact fun st _ => ⟨st, rfl, rfl⟩
    | cons s shots ih =>
      intro st hst
      have hne : s.calls ≠ [] := by
        intro hnil
        have hlen := s.length
        rw [← s.cut, hnil, List.flatten_nil, List.length_nil] at hlen
        omega
      have hfull : ([] ++ s.calls.flatten).length = d.numMsynPerDecode := by
        rw [List.nil_append, s.cut, s.length, (d.measurementToDetectors_eq hD).2.1]
      obtain ⟨st₁, hcalls, hst₁, hcor₁⟩ :=
        Decoder.enqueue_calls hD hmodel hsize hst s.calls s.pos hne hfull
      obtain ⟨st₂, hrest, hcor₂⟩ := ih st₁ hst₁
      rw [List.nil_append, s.cut] at hcalls hcor₁
      refine ⟨st₂, DecoderData.enqueueAll_append hcalls hrest, hcor₂.trans ?_⟩
      rw [hcor₁]
      rfl
  exact key _ d.receiving_fresh

def pairMap : SparseBinaryMatrix := .ofGroups .csr 1 2 [[0, 1]]

def pairDecoder : Decoder where
  init := { flipInit with
    D := some pairMap
    d_shape := by
      intro m hm
      cases hm
      exact ⟨rfl, rfl⟩ }
  output := .errors
  measurementToDetectors := [[0, 1]]
  numMsynPerDecode := 2
  detectorReadyOrder := [(2, 0)]
  chunkObservables := none
  built := rfl

def echo (syndrome : List SoftValue) : List SoftValue := [syndrome.headD (.finite 0)]

/-- Two shots, the first in two calls. -/
theorem enqueue_shots_pair :
    ∃ st, pairDecoder.enqueueAll none echo pairDecoder.freshState [[1], [0], [1, 1]] =
        .ok (st, [⟨false, none⟩, ⟨true, some [.finite 1]⟩, ⟨true, some [.finite 0]⟩]) ∧
      st.corrections = [true] := by
  obtain ⟨st, hrun, hcor⟩ := enqueue_shots pairDecoder pairMap rfl (by decide) (fun _ => rfl) echo
    (fun _ => rfl)
    [⟨[1, 0], [[1], [0]], rfl, rfl, by decide⟩, ⟨[1, 1], [[1, 1]], rfl, rfl, by decide⟩]
  exact ⟨st, hrun, hcor⟩

/-- The same model without its observable matrix. -/
def bareDecoder : Decoder where
  init := { flipInit with
    numObservables := 0
    O := none
    o_shape := by simp
    chunked := by simp [flipInit] }
  output := .errors
  measurementToDetectors := [[0]]
  numMsynPerDecode := 1
  detectorReadyOrder := [(1, 0)]
  chunkObservables := none
  built := rfl

/-- A decoder that produces errors and has no observable model throws when its first shot is
complete. -/
theorem enqueue_throws : bareDecoder.init.D = some flipMatrix ∧ 0 < flipMatrix.numCols ∧
    bareDecoder.enqueueAll none echo bareDecoder.freshState [[1]] = .error (.runtimeError
      ("Error-frame decoders need an observable model to project through; this one " ++
        "was constructed without one")) := by
  refine ⟨rfl, by decide, by decide +kernel⟩

end CudaqQec
