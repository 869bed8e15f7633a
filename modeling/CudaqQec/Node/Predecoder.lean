import CudaqQec.Node.Published
import CudaqQec.Sparse.Canonical
import CudaqQec.Sparse.Product

/-!
# Pre-decoders

`predecoder_node`: a cheap decode of one window. The node commits what the decode explains and hands
the detection events that are left to the node behind it; a fire empties the buffer. Where the
residual is derived from the parity checks, both halves come from one error pattern. Left out are the
edges' types and the warnings.

* `Predecoder.Completes`: the committed and the residual part add up to the whole correction.
* `predecoder_addsUp`: streamed in any chunks, or as one shot, exactly when the window holds all the
  measurements that `D` reads.
-/

namespace CudaqQec

open Checked SparseBinaryMatrix Toggle

/-! ## Nodes -/

inductive ResidualSource where
  | parityCheck
  | model
  deriving DecidableEq

/-- `decoder_result`. An auxiliary value that is no vector of soft values cannot be read as one. -/
structure InnerResult where
  converged : Bool
  result : List SoftValue
  optResults : Option (List (String × Option (List SoftValue)))

/-- The decoder of a pre-decoder, with whatever state it keeps. It reads detectors as the bytes that
`detect_into` computes. -/
structure PredecoderInner (σ : Type) where
  resultType : DecodeResultType
  requestsResidualDetectors : Bool
  syndromeSize : Nat
  blockSize : Nat
  decode : σ → List UInt8 → σ × InnerResult
  reset : σ → σ

/-- What a `predecoder_node` is built with. -/
structure Predecoder (σ : Type) where
  src : ResidualSource
  D : SparseBinaryMatrix
  O : SparseBinaryMatrix
  H : Option SparseBinaryMatrix
  dec : PredecoderInner σ
  spr : Nat
  bufSize : Nat

/-- What a fire publishes: `pre_L`, and the residual detection events. -/
structure PredecoderOutputs where
  preL : LogicalOutcome
  residual : List UInt8
  deriving DecidableEq

namespace Predecoder

variable {σ : Type}

def invalid (what : String) : Error := .invalidArgument ("predecoder_node: " ++ what)

/-- The checks of `H`, which only the parity-check residual reads. -/
def checkParity (D O H : SparseBinaryMatrix) (dec : PredecoderInner σ) : Except Error Unit := do
  throwIf (H.numRows ≠ D.numRows)
    (invalid ("H has " ++ toString H.numRows ++ " detector rows but D produces " ++
      toString D.numRows))
  throwIf (dec.blockSize ≠ H.numCols)
    (invalid ("the inner decoder predicts " ++ toString dec.blockSize ++ " mechanisms but H has " ++
      toString H.numCols ++ " columns; it was built on a different DEM than this node's"))
  throwIf (H.numCols < O.numCols)
    (invalid ("O references column " ++ toString (O.numCols - 1) ++ " but H has only " ++
      toString H.numCols ++ " columns"))

/-- The constructor, once its handles are known not to be null. -/
def createFrom (src : ResidualSource) (D O : SparseBinaryMatrix) (H : Option SparseBinaryMatrix)
    (dec : PredecoderInner σ) (spr rounds numMeasurements : Nat) : Except Error (Predecoder σ) := do
  throwIf (src = .parityCheck ∧ H.isNone)
    (invalid ("residual_from parity_check needs H to map a prediction back to the detectors it " ++
      "explains"))
  throwIf (spr = 0 ∨ rounds = 0)
    (invalid "rounds and syndrome bytes per round must both be positive")
  throwIf (src = .parityCheck ∧ dec.resultType ≠ .errors)
    (invalid ("the inner decoder projects to observables itself (observables), so it cannot say " ++
      "which detectors it explained and no residual can be formed from it"))
  throwIf (src = .model ∧ ¬ (dec.resultType = .observables ∧ dec.requestsResidualDetectors))
    (invalid ("residual_from model needs an inner decoder that returns observables plus " ++
      "residual_detectors metadata"))
  throwIf (dec.syndromeSize ≠ D.numRows)
    (invalid ("the inner decoder reads " ++ toString dec.syndromeSize ++
      " detectors but D produces " ++ toString D.numRows ++
      "; it was built on a different DEM than this node's"))
  match src, H with
  | .parityCheck, some H => checkParity D O H dec
  | _, _ => .ok ()
  return {
    src := src
    D := D.toCsr
    O := O.toCsr
    H := H.map toCsr
    dec := dec
    spr := spr
    bufSize := if numMeasurements ≠ 0 then numMeasurements else rounds * spr }

/-- The constructor. -/
def create (src : ResidualSource) (D O H : Option SparseBinaryMatrix)
    (dec : Option (PredecoderInner σ)) (spr rounds numMeasurements : Nat) :
    Except Error (Predecoder σ) :=
  match D, O, dec with
  | some D, some O, some dec => createFrom src D O H dec spr rounds numMeasurements
  | _, _, _ => .error (invalid "D, O and the inner decoder are all required")

end Predecoder

/-! ## The kernels -/

/-- `detect_into`, out of a buffer that may be shorter than a row asks for. -/
def detectChecked (D : SparseBinaryMatrix) (buffer : List UInt8) : Except Fault (List UInt8) :=
  D.groups.mapM fun row => row.foldlM (fun value column =>
    match buffer[column]? with
    | some b => .ok (value ^^^ b)
    | none => .error .outOfBounds) 0

/-- `convert_soft_to_hard` of a detector: its bytes are exact as floats. -/
def hardByte (b : UInt8) : Bool := convertSoftToHard (.finite b.toNat)

/-- A hard bit, carried in a `float_t`. -/
def bitByte (b : Bool) : UInt8 := if b then 1 else 0

/-- `residual_into`: each detector XOR the parity of its row of `H` over the errors. -/
def residualInto (H : SparseBinaryMatrix) (dets : List UInt8) (errors : List SoftValue) :
    List UInt8 :=
  List.zipWith (fun d row => bitByte (row.foldl (fun parity column =>
    parity ^^ convertSoftToHard (DecoderData.valueAt errors column)) (hardByte d))) dets H.groups

/-! ## Decoding a window -/

/-- The members that calls change. -/
structure PredecoderState (σ : Type) where
  dec : σ
  bytesIn : Nat
  buf : List UInt8
  corr : List Bool
  outputs : PredecoderOutputs
  outputsValid : Bool

inductive PredecoderCall where
  | enqueue (chunk : List UInt8)
  | flush
  | clearCorrections
  | resetStreamingState
  | resetDecoder
  | executeIndexed (shot : List UInt8)

namespace Predecoder

variable {σ : Type} (n : Predecoder σ)

def outOfRange (what : String) : Fault := .thrown (.outOfRange ("predecoder_node: " ++ what))

/-- Both halves under `model`: the observables, and the residual that comes as auxiliary data. -/
def modelOutputs (dr : InnerResult) : Except Fault PredecoderOutputs := do
  throwIf (dr.result.length ≠ n.O.numRows)
    (outOfRange ("residual_from model expects " ++ toString n.O.numRows ++
      " observable values, but the inner decoder returned " ++ toString dr.result.length))
  match (dr.optResults.getD []).find? (·.1 = "residual_detectors") with
  | some (_, some residual) =>
    throwIf (residual.length ≠ n.D.numRows)
      (outOfRange ("residual_from model expects " ++ toString n.D.numRows ++
        " residual detectors, but the inner decoder returned " ++ toString residual.length))
    return ⟨⟨dr.result.map convertSoftToHard, true⟩,
      residual.map fun v => bitByte (convertSoftToHard v)⟩
  | _ => .error (outOfRange ("residual_from model requires the inner decoder to return " ++
      "residual_detectors in opt_results"))

def tooShort (width : Nat) (dr : InnerResult) : Fault :=
  outOfRange ("decoder returned " ++ toString dr.result.length ++
    " values, but O and H reference column " ++ toString (width - 1))

/-- Both halves under `parity_check`: one error pattern, through `O` and through `H`. -/
def parityOutputs (dets : List UInt8) (dr : InnerResult) : Except Fault PredecoderOutputs :=
  match n.H with
  | none => .error .outOfBounds
  | some H => do
    throwIf (dr.result.length < max n.O.numCols H.numCols) (tooShort (max n.O.numCols H.numCols) dr)
    return ⟨⟨projectInto n.O dr.result, true⟩, residualInto H dets dr.result⟩

/-- The last steps of `decode_into`. -/
def deriveOutputs (dets : List UInt8) (dr : InnerResult) : Except Fault PredecoderOutputs :=
  match n.src with
  | .model => n.modelOutputs dr
  | .parityCheck => n.parityOutputs dets dr

/-- `decode_into`: what the outputs hold afterwards, also where it throws. A decode that did not
converge commits nothing and hands the detectors on as they are. -/
def decodeInto (dets : List UInt8) (dr : InnerResult) (out : PredecoderOutputs) :
    PredecoderOutputs × Except Fault Unit :=
  let cleared := { out with preL := ⟨List.replicate out.preL.bits.length false, true⟩ }
  if dr.converged = false then ({ cleared with residual := dets }, .ok ())
  else
    match n.deriveOutputs dets dr with
    | .error e => (cleared, .error e)
    | .ok out => (out, .ok ())

/-! ## Calls -/

def blankOutputs (converged : Bool) : PredecoderOutputs where
  preL := ⟨List.replicate n.O.numRows false, converged⟩
  residual := List.replicate n.D.numRows 0

/-- A node as constructed. -/
def initialState (s : σ) : PredecoderState σ where
  dec := s
  bytesIn := 0
  buf := List.replicate n.bufSize 0
  corr := List.replicate n.O.numRows false
  outputs := n.blankOutputs false
  outputsValid := false

/-- A full window. -/
def fire (st : PredecoderState σ) : PredecoderState σ × Except Fault Bool :=
  match detectChecked n.D st.buf with
  | .error e => (st, .error e)
  | .ok dets =>
    let r := n.dec.decode st.dec dets
    match n.decodeInto dets r.2 st.outputs with
    | (out, .error e) => ({ st with dec := r.1, outputs := out }, .error e)
    | (out, .ok ()) =>
      ({ st with
          dec := r.1
          outputs := out
          corr := xorBits st.corr out.preL.bits
          outputsValid := true }, .ok true)

/-- `enqueue`. A chunk that does not fit is ignored. -/
def enqueue (st : PredecoderState σ) (chunk : List UInt8) :
    PredecoderState σ × Except Fault Bool :=
  if st.buf.length < st.bytesIn + chunk.length then (st, .ok false)
  else
    let st := { st with
      buf := st.buf.take st.bytesIn ++ chunk ++ st.buf.drop (st.bytesIn + chunk.length)
      bytesIn := st.bytesIn + chunk.length }
    if st.bytesIn < st.buf.length then (st, .ok false)
    else n.fire { st with bytesIn := 0 }

/-- `streaming_output`: both slots, or none. -/
def streamingOutput (st : PredecoderState σ) : Option PredecoderOutputs :=
  if st.outputsValid then some st.outputs else none

def clearCorrections (st : PredecoderState σ) : PredecoderState σ :=
  { st with corr := List.replicate st.corr.length false }

def resetStreamingState (st : PredecoderState σ) : PredecoderState σ :=
  clearCorrections { st with
    bytesIn := 0
    buf := List.replicate st.buf.length 0
    outputsValid := false }

def resetDecoder (st : PredecoderState σ) : PredecoderState σ :=
  { resetStreamingState st with dec := n.dec.reset st.dec }

def shotTooShort (m : List UInt8) : Fault :=
  outOfRange ("shot has " ++ toString m.length ++ " measurements, D needs " ++
    toString n.D.numCols)

/-- `execute_indexed`, on a shot. It changes the inner decoder only. -/
def executeIndexed (st : PredecoderState σ) (m : List UInt8) :
    PredecoderState σ × Except Fault PredecoderOutputs :=
  if m.length < n.D.numCols then (st, .error (n.shotTooShort m))
  else
    match detectChecked n.D m with
    | .error e => (st, .error e)
    | .ok dets =>
      let r := n.dec.decode st.dec dets
      match n.decodeInto dets r.2 (n.blankOutputs false) with
      | (_, .error e) => ({ st with dec := r.1 }, .error e)
      | (out, .ok ()) => ({ st with dec := r.1 }, .ok out)

/-- A call that returned or threw leaves a state; one that read out of bounds leaves none. -/
def after {α : Type} : PredecoderState σ × Except Fault α → Except Fault (PredecoderState σ)
  | (_, .error .outOfBounds) => .error .outOfBounds
  | (st, _) => .ok st

def step (st : PredecoderState σ) : PredecoderCall → Except Fault (PredecoderState σ)
  | .enqueue chunk => after (n.enqueue st chunk)
  | .flush => .ok st
  | .clearCorrections => .ok (clearCorrections st)
  | .resetStreamingState => .ok (resetStreamingState st)
  | .resetDecoder => .ok (n.resetDecoder st)
  | .executeIndexed shot => after (n.executeIndexed st shot)

def run (st : PredecoderState σ) (calls : List PredecoderCall) :
    Except Fault (PredecoderState σ) := calls.foldlM n.step st

@[grind =] def streamed (st : PredecoderState σ) : List (List UInt8) → Except Fault (PredecoderState σ)
  | [] => .ok st
  | c :: cs =>
    match n.enqueue st c with
    | (_, .error e) => .error e
    | (st, .ok _) => streamed st cs

end Predecoder

/-! ## What the kernels compute -/

section Kernels

variable {D O H : SparseBinaryMatrix} {buffer dets : List UInt8}

/-- Where no row reads past the buffer, the detectors are the XOR of their measurements. -/
theorem detectChecked_eq_ok (h : D.numCols ≤ buffer.length) :
    detectChecked D.toCsr buffer = .ok (detectInto D.toCsr buffer) := by
  have hrow : ∀ (row : List Nat) (value : UInt8), (∀ c ∈ row, c < D.numCols) →
      (row.foldlM (fun value column => match buffer[column]? with
        | some b => Except.ok (value ^^^ b)
        | none => .error Fault.outOfBounds) value) =
          .ok (row.foldl (fun value column => value ^^^ buffer.getD column 0) value) := by
    intro row
    induction row with
    | nil => exact fun _ _ => rfl
    | cons c row ih =>
      intro value hc
      have hlt : c < buffer.length := (hc c (by simp)).trans_le h
      rw [List.foldlM_cons, List.getElem?_eq_getElem hlt, List.foldl_cons,
        List.getD_eq_getElem _ _ hlt]
      exact ih _ fun c' hc' => hc c' (by simp [hc'])
  refine mapM_eq_ok_map fun row hg => hrow row 0 fun c hc => ?_
  rw [groups_toCsr] at hg
  exact D.mem_toNestedCsr_lt hg hc

/-- Reading out of bounds is no exception. -/
theorem detectChecked_ne_thrown (e : Error) : detectChecked D buffer ≠ .error (.thrown e) := by
  refine mapM_ne_error fun row _ => foldlM_ne_error (fun value column _ => ?_) 0
  split <;> simp

theorem hardByte_eq (b : UInt8) : hardByte b = decide (b ≠ 0) := by
  unfold hardByte convertSoftToHard
  apply decide_eq_decide.mpr
  rw [ne_eq, ← UInt8.toNat_inj, UInt8.toNat_zero]
  constructor
  · intro h h0
    rw [h0] at h
    norm_num at h
  · intro h
    have hone : (1 : ℚ) ≤ b.toNat := by exact_mod_cast Nat.one_le_iff_ne_zero.mpr h
    linarith

@[simp] theorem hardByte_bitByte (b : Bool) : hardByte (bitByte b) = b := by
  rw [hardByte_eq]
  cases b <;> rfl

/-- A product that walks the rows reads the bits below the width of the matrix only. -/
theorem groups_toCsr_parity (m : SparseBinaryMatrix) {bit : Nat → Bool} {e : List Bool}
    (h : ∀ c < m.numCols, bit c = e.getD c false) :
    (m.toCsr.groups.map fun row => row.foldl (fun parity c => parity ^^ bit c) false) =
      m.mulVec e := by
  rw [groups_toCsr]
  apply List.ext_getElem (by simp)
  intro r hr hr'
  have hrow : r < m.numRows := by simpa using hr
  rw [List.getElem_map, ← List.getD_eq_getElem _ false hr', ← foldl_row_eq m hrow,
    ← List.getD_eq_getElem _ []]
  rw [foldl_xor_eq, foldl_xor_eq]
  congr 2
  rw [List.countP_congr fun c hc => ?_]
  rw [h c (m.mem_toNestedCsr_lt (getD_mem hc) hc)]

/-- The bits of an error pattern: those of the result where the decode converged, else none. -/
def predicted (width : Nat) (dr : InnerResult) : List Bool :=
  (List.range width).map fun c =>
    dr.converged && convertSoftToHard (DecoderData.valueAt dr.result c)

@[simp] theorem length_predicted (width : Nat) (dr : InnerResult) :
    (predicted width dr).length = width := by simp [predicted]

theorem getD_predicted {width c : Nat} {dr : InnerResult} (hc : c < width)
    (h : dr.converged = true) : (predicted width dr).getD c false =
      convertSoftToHard (DecoderData.valueAt dr.result c) := by
  rw [predicted, getD_map_range, if_pos hc, h, Bool.true_and]

theorem predicted_abstains {width : Nat} {dr : InnerResult} (h : dr.converged = false) :
    predicted width dr = List.replicate width false := by
  simp [predicted, h, List.map_const']

@[simp] theorem mulVec_zero (m : SparseBinaryMatrix) (k : Nat) :
    m.mulVec (List.replicate k false) = List.replicate m.numRows false := by
  have hget : ∀ c, (List.replicate k false).getD c false = false := by
    intro c
    rw [List.getD_eq_getElem?_getD, List.getElem?_replicate]
    split <;> rfl
  simp only [mulVec, hget, Bool.and_false]
  simp [List.map_const']

/-- What a fire commits is the product of `O` with the error pattern. -/
theorem projectInto_eq {width : Nat} {dr : InnerResult} (hw : O.numCols ≤ width)
    (h : dr.converged = true) : projectInto O.toCsr dr.result = O.mulVec (predicted width dr) :=
  groups_toCsr_parity O fun _ hc => (getD_predicted (hc.trans_le hw) h).symm

/-- What a fire leaves is what the error pattern does not explain. -/
theorem residualInto_eq {dr : InnerResult} (h : dr.converged = true) :
    residualInto H.toCsr dets dr.result =
      (xorBits (dets.map hardByte) (H.mulVec (predicted H.numCols dr))).map bitByte := by
  rw [← groups_toCsr_parity H fun _ hc => (getD_predicted hc h).symm, residualInto, xorBits,
    List.map_zipWith, List.zipWith_map]
  congr 1
  funext d row
  rw [foldl_xor_eq, foldl_xor_eq, Bool.false_xor]

theorem xorColumns_bits (h : ∀ b ∈ buffer, b = 0 ∨ b = 1) (row : List Nat) :
    xorColumns buffer row =
      bitByte (row.foldl (fun parity c => parity ^^ (buffer.map hardByte).getD c false) false) := by
  have hget : ∀ c, buffer.getD c 0 = bitByte ((buffer.map hardByte).getD c false) := by
    intro c
    rw [List.getD_eq_getElem?_getD, List.getD_eq_getElem?_getD, List.getElem?_map]
    cases hc : buffer[c]? with
    | none => rfl
    | some b =>
      show b = bitByte (hardByte b)
      rcases h b (List.mem_of_getElem? hc) with rfl | rfl <;> rw [hardByte_eq] <;> rfl
  have key : ∀ b, row.foldl (fun value c => value ^^^ buffer.getD c 0) (bitByte b) =
      bitByte (row.foldl (fun parity c => parity ^^ (buffer.map hardByte).getD c false) b) := by
    induction row with
    | nil => exact fun _ => rfl
    | cons c row ih =>
      intro b
      rw [List.foldl_cons, List.foldl_cons, ← ih, hget c]
      congr 1
      cases b <;> cases (buffer.map hardByte).getD c false <;> rfl
  exact key false

theorem detectInto_bits (h : ∀ b ∈ buffer, b = 0 ∨ b = 1) :
    detectInto D.toCsr buffer = (D.mulVec (buffer.map hardByte)).map bitByte := by
  rw [← groups_toCsr_parity D fun _ _ => rfl, List.map_map]
  exact List.map_congr_left fun row _ => xorColumns_bits h row

end Kernels

/-! ## What holds between calls -/

namespace Predecoder

variable {σ : Type} {n : Predecoder σ} {D O H : SparseBinaryMatrix} {st st' : PredecoderState σ}

/-- A node that derives its residual from the parity checks. -/
structure Derives (n : Predecoder σ) (D O H : SparseBinaryMatrix) : Prop where
  src : n.src = .parityCheck
  d_eq : n.D = D.toCsr
  o_eq : n.O = O.toCsr
  h_eq : n.H = some H.toCsr
  bufSize : 0 < n.bufSize
  rows : H.numRows = D.numRows
  cols : O.numCols ≤ H.numCols

theorem create_derives {dec : PredecoderInner σ} {spr rounds numMeasurements : Nat}
    (h : create .parityCheck (some D) (some O) (some H) (some dec) spr rounds numMeasurements =
      .ok n) : n.Derives D O H := by
  simp only [create, createFrom, checkParity, bind_eq_ok, throwIf_eq_ok, ne_eq, not_not, not_or,
    not_lt] at h
  obtain ⟨_, -, _, ⟨hspr, hrounds⟩, _, -, _, -, _, -, _, ⟨_, hrows, _, -, hcols⟩, hok⟩ := h
  cases hok
  refine ⟨rfl, rfl, rfl, rfl, ?_, hrows, hcols⟩
  show 0 < if numMeasurements ≠ 0 then numMeasurements else rounds * spr
  split
  · next hk => exact Nat.pos_of_ne_zero hk
  · exact Nat.mul_pos (Nat.pos_of_ne_zero hrounds) (Nat.pos_of_ne_zero hspr)

/-- Buffers keep their sizes, and a full window never waits. -/
structure Sized (n : Predecoder σ) (st : PredecoderState σ) : Prop where
  buf : st.buf.length = n.bufSize
  bytesIn : st.bytesIn < n.bufSize
  outputs : st.outputs.preL.bits.length = n.O.numRows

theorem Derives.initialState (h : n.Derives D O H) (s : σ) : n.Sized (n.initialState s) where
  buf := List.length_replicate
  bytesIn := h.bufSize
  outputs := List.length_replicate

theorem Derives.length_projectInto (h : n.Derives D O H) (errors : List SoftValue) :
    (projectInto n.O errors).length = n.O.numRows := by
  rw [projectInto, List.length_map, n.O.length_groups_csr (by rw [h.o_eq, toCsr_layout])]

/-- What `decode_into` leaves has the width of what was there. -/
theorem Derives.decodeInto_bits (h : n.Derives D O H) {dets : List UInt8} {dr : InnerResult}
    {out : PredecoderOutputs} (hout : out.preL.bits.length = n.O.numRows) :
    (n.decodeInto dets dr out).1.preL.bits.length = n.O.numRows := by
  unfold decodeInto
  split
  · simpa using hout
  · split
    · simpa using hout
    · next out' hok =>
      rw [deriveOutputs, h.src] at hok
      simp only [parityOutputs, h.h_eq, bind_eq_ok] at hok
      obtain ⟨_, -, hok⟩ := hok
      cases hok
      exact h.length_projectInto _

/-- A fire keeps the buffer, and the outputs' width. -/
theorem Derives.fire_sized (h : n.Derives D O H) (hs : n.Sized st) : n.Sized (n.fire st).1 := by
  unfold fire
  split
  · exact hs
  · next dets _ =>
    have hbits := @decodeInto_bits _ _ _ _ _ h dets (n.dec.decode st.dec dets).2 _ hs.outputs
    dsimp only
    split
    · next out e hd =>
      rw [hd] at hbits
      exact ⟨hs.buf, hs.bytesIn, hbits⟩
    · next out hd =>
      rw [hd] at hbits
      exact ⟨hs.buf, hs.bytesIn, hbits⟩

def stored (st : PredecoderState σ) (chunk : List UInt8) : PredecoderState σ :=
  { st with
    buf := st.buf.take st.bytesIn ++ chunk ++ st.buf.drop (st.bytesIn + chunk.length)
    bytesIn := st.bytesIn + chunk.length }

theorem length_stored {chunk : List UInt8} (h : st.bytesIn + chunk.length ≤ st.buf.length) :
    (stored st chunk).buf.length = st.buf.length := by
  simp only [stored, List.length_append, List.length_take, List.length_drop]
  omega

theorem enqueue_cases (hs : n.Sized st) (chunk : List UInt8) :
    n.bufSize < st.bytesIn + chunk.length ∧ n.enqueue st chunk = (st, .ok false) ∨
    st.bytesIn + chunk.length < n.bufSize ∧ n.enqueue st chunk = (stored st chunk, .ok false) ∨
    st.bytesIn + chunk.length = n.bufSize ∧
      n.enqueue st chunk = n.fire { stored st chunk with bytesIn := 0 } := by
  have hbuf := hs.buf
  unfold enqueue
  by_cases hlong : st.buf.length < st.bytesIn + chunk.length
  · exact .inl ⟨by omega, by rw [if_pos hlong]⟩
  · rw [if_neg hlong]
    have hlen := @length_stored _ st chunk (by omega)
    by_cases hpart : st.bytesIn + chunk.length < n.bufSize
    · refine .inr (.inl ⟨hpart, ?_⟩)
      exact if_pos (by rw [← stored, hlen]; show st.bytesIn + chunk.length < _; omega)
    · refine .inr (.inr ⟨by omega, ?_⟩)
      exact if_neg (by rw [← stored, hlen]; show ¬ st.bytesIn + chunk.length < _; omega)

/-- Every call keeps the sizes. -/
theorem Derives.step_sized (h : n.Derives D O H) (hs : n.Sized st) {call : PredecoderCall}
    (hstep : n.step st call = .ok st') : n.Sized st' := by
  -- what a call leaves has the sizes, whether it returned or threw
  have hafter : ∀ {α : Type} (r : PredecoderState σ × Except Fault α), n.Sized r.1 →
      after r = .ok st' → n.Sized st' := by
    intro α r hr hok
    unfold after at hok
    split at hok
    · cases hok
    · cases hok
      exact hr
  cases call with
  | enqueue chunk =>
    refine hafter _ ?_ hstep
    rcases enqueue_cases hs chunk with ⟨-, he⟩ | ⟨hlt, he⟩ | ⟨heq, he⟩
    · rw [he]
      exact hs
    · rw [he]
      exact ⟨(length_stored (by rw [hs.buf]; omega)).trans hs.buf, hlt, hs.outputs⟩
    · rw [he]
      have hlen := @length_stored _ st chunk (by rw [hs.buf]; omega)
      exact h.fire_sized ⟨hlen.trans hs.buf, h.bufSize, hs.outputs⟩
  | flush =>
    cases hstep
    exact hs
  | clearCorrections =>
    cases hstep
    exact ⟨hs.buf, hs.bytesIn, hs.outputs⟩
  | resetStreamingState =>
    cases hstep
    exact ⟨List.length_replicate.trans hs.buf, h.bufSize, hs.outputs⟩
  | resetDecoder =>
    cases hstep
    exact ⟨List.length_replicate.trans hs.buf, h.bufSize, hs.outputs⟩
  | executeIndexed shot =>
    refine hafter _ ?_ hstep
    unfold executeIndexed
    split
    · exact hs
    · split
      · exact hs
      · dsimp only
        split
        · exact ⟨hs.buf, hs.bytesIn, hs.outputs⟩
        · exact ⟨hs.buf, hs.bytesIn, hs.outputs⟩

theorem Derives.run_sized (h : n.Derives D O H) (hs : n.Sized st) {calls : List PredecoderCall}
    (hrun : n.run st calls = .ok st') : n.Sized st' := by
  induction calls generalizing st with
  | nil =>
    cases hrun
    exact hs
  | cons call calls ih =>
    rw [run, List.foldlM_cons, bind_eq_ok] at hrun
    obtain ⟨st₁, hstep, hrun⟩ := hrun
    exact ih (h.step_sized hs hstep) hrun

/-! ## A window and its outputs -/

def windowOutputs (n : Predecoder σ) (dets : List UInt8) (dr : InnerResult) :
    Except Fault PredecoderOutputs :=
  if dr.converged = false then .ok ⟨⟨List.replicate n.O.numRows false, true⟩, dets⟩
  else n.deriveOutputs dets dr

theorem decodeInto_spec {dets : List UInt8} {dr : InnerResult} {out : PredecoderOutputs}
    (hout : out.preL.bits.length = n.O.numRows) :
    (∃ out', n.windowOutputs dets dr = .ok out' ∧ n.decodeInto dets dr out = (out', .ok ())) ∨
      ∃ e cleared, n.windowOutputs dets dr = .error e ∧
        n.decodeInto dets dr out = (cleared, .error e) := by
  unfold windowOutputs decodeInto
  split
  · left
    rw [hout]
    exact ⟨_, rfl, rfl⟩
  · cases n.deriveOutputs dets dr with
    | error e => exact .inr ⟨e, _, rfl, rfl⟩
    | ok out' => exact .inl ⟨out', rfl, rfl⟩

/-- A fire on a full buffer publishes the outputs of its window, and adds what it committed to the
corrections. -/
theorem fire_spec {dets : List UInt8} (hs : n.Sized st) (hd : detectChecked n.D st.buf = .ok dets) :
    (∃ out, n.windowOutputs dets (n.dec.decode st.dec dets).2 = .ok out ∧
      n.fire st = ({ st with
        dec := (n.dec.decode st.dec dets).1
        outputs := out
        corr := xorBits st.corr out.preL.bits
        outputsValid := true }, .ok true)) ∨
      ∃ e st', n.windowOutputs dets (n.dec.decode st.dec dets).2 = .error e ∧
        n.fire st = (st', .error e) := by
  unfold fire
  rw [hd]
  dsimp only
  rcases @decodeInto_spec _ n dets (n.dec.decode st.dec dets).2 _ hs.outputs with
    ⟨out, hw, hdec⟩ | ⟨e, cleared, hw, hdec⟩
  · rw [hdec]
    exact .inl ⟨out, hw, rfl⟩
  · rw [hdec]
    exact .inr ⟨e, _, hw, rfl⟩

/-- A shot that `D` does not read past gives the outputs of its window. -/
theorem executeIndexed_spec {dets m : List UInt8} (hm : n.D.numCols ≤ m.length)
    (hd : detectChecked n.D m = .ok dets) :
    (n.executeIndexed st m).2 = n.windowOutputs dets (n.dec.decode st.dec dets).2 := by
  unfold executeIndexed
  rw [if_neg (by omega), hd]
  dsimp only
  rcases @decodeInto_spec _ n dets (n.dec.decode st.dec dets).2 (n.blankOutputs false)
    List.length_replicate with ⟨out, hw, hdec⟩ | ⟨e, cleared, hw, hdec⟩
  · rw [hdec, hw]
  · rw [hdec, hw]

/-- The two parts of the correction of a window, cut along one error pattern `e`: what is committed
and what is left are products with it, so with whatever explains the residual it explains the
detectors, and the observables of the two are those of their sum. -/
structure Completes (D O H : SparseBinaryMatrix) (window : List UInt8) (e : List Bool)
    (out : PredecoderOutputs) : Prop where
  converged : out.preL.converged = true
  committed : out.preL.bits = O.mulVec e
  residual : out.residual.map hardByte =
    xorBits ((detectInto D.toCsr window).map hardByte) (H.mulVec e)
  whole : ∀ e', e'.length = H.numCols → H.mulVec e' = out.residual.map hardByte →
    H.mulVec (xorBits e e') = (detectInto D.toCsr window).map hardByte ∧
      xorBits out.preL.bits (O.mulVec e') = O.mulVec (xorBits e e')
  /-- Where the measurements are bits, the detectors are their product with `D`. -/
  bits : (∀ b ∈ window, b = 0 ∨ b = 1) →
    detectInto D.toCsr window = (D.mulVec (window.map hardByte)).map bitByte ∧
      out.residual = (xorBits (D.mulVec (window.map hardByte)) (H.mulVec e)).map bitByte

theorem length_detectInto (window : List UInt8) : (detectInto D.toCsr window).length = D.numRows := by
  rw [detectInto, List.length_map, groups_toCsr, length_toNestedCsr]

theorem Derives.completes (h : n.Derives D O H) {window : List UInt8} {dr : InnerResult}
    {out : PredecoderOutputs} (hw : n.windowOutputs (detectInto D.toCsr window) dr = .ok out) :
    Completes D O H window (predicted H.numCols dr) out := by
  have hlen := @length_detectInto D window
  have hbytes : ∀ dets : List Bool, (dets.map bitByte).map hardByte = dets := by
    intro dets
    rw [List.map_map]
    exact List.map_id'' hardByte_bitByte dets
  have hcommitted : out.preL = ⟨O.mulVec (predicted H.numCols dr), true⟩ ∧
      (out.residual.map hardByte = xorBits ((detectInto D.toCsr window).map hardByte)
        (H.mulVec (predicted H.numCols dr))) ∧
      (out.residual = detectInto D.toCsr window ∧ dr.converged = false ∨
        out.residual = (xorBits ((detectInto D.toCsr window).map hardByte)
          (H.mulVec (predicted H.numCols dr))).map bitByte) := by
    unfold windowOutputs at hw
    split at hw
    · next hc =>
      -- Nothing is predicted, so nothing is committed and everything is left.
      cases hw
      rw [predicted_abstains hc, mulVec_zero, mulVec_zero, h.o_eq, toCsr_numRows]
      refine ⟨rfl, ?_, .inl ⟨rfl, hc⟩⟩
      have hzero := xorBits_replicate ((detectInto D.toCsr window).map hardByte)
      rw [List.length_map, hlen, ← h.rows, xorBits_comm] at hzero
      exact hzero.symm
    · next hc =>
      have hc' : dr.converged = true := by simpa using hc
      rw [deriveOutputs, h.src] at hw
      simp only [parityOutputs, h.h_eq, bind_eq_ok] at hw
      obtain ⟨_, -, hok⟩ := hw
      cases hok
      rw [h.o_eq, projectInto_eq h.cols hc', residualInto_eq hc', hbytes]
      exact ⟨rfl, rfl, .inr rfl⟩
  obtain ⟨hpre, hres, hraw⟩ := hcommitted
  refine ⟨by rw [hpre], by rw [hpre], hres, fun e' he' hexp => ?_, fun hbits => ?_⟩
  · have hsum : (predicted H.numCols dr).length = e'.length := by simp [he']
    rw [mulVec_xorBits H hsum, mulVec_xorBits O hsum, hexp, hres, hpre]
    refine ⟨xorBits_cancel ?_, rfl⟩
    simp [hlen, h.rows]
  · have hdets := @detectInto_bits D _ hbits
    refine ⟨hdets, ?_⟩
    rcases hraw with ⟨hraw, hc⟩ | hraw
    · have hzero := xorBits_replicate (D.mulVec (window.map hardByte))
      rw [length_mulVec, ← h.rows, xorBits_comm] at hzero
      rw [hraw, hdets, predicted_abstains hc, mulVec_zero, hzero]
    · rw [hraw, hdets, hbytes]

/-! ## Streams -/

/-- Nothing more arrives. -/
theorem streamed_empty (hs : n.Sized st) {chunks : List (List UInt8)} (h : chunks.flatten = []) :
    n.streamed st chunks = .ok st := by
  induction chunks with
  | nil => rfl
  | cons c cs ih =>
    rw [List.flatten_cons, List.append_eq_nil_iff] at h
    obtain ⟨rfl, htail⟩ := h
    have hstored : stored st [] = st := by simp [stored]
    have henq : n.enqueue st [] = (st, .ok false) := by
      have hlt := hs.bytesIn
      rcases enqueue_cases hs [] with ⟨hlong, -⟩ | ⟨-, he⟩ | ⟨hfull, -⟩
      · rw [List.length_nil] at hlong
        omega
      · rw [he, hstored]
      · rw [List.length_nil] at hfull
        omega
    unfold streamed
    rw [henq]
    exact ih htail

/-- A window in any chunks is one fire, once its last byte is in. -/
theorem Derives.streamed_window (h : n.Derives D O H) (hs : n.Sized st)
    {chunks : List (List UInt8)} (hlen : st.bytesIn + chunks.flatten.length = n.bufSize) :
    n.streamed st chunks =
      match n.fire { st with buf := st.buf.take st.bytesIn ++ chunks.flatten, bytesIn := 0 } with
      | (_, .error e) => .error e
      | (st, .ok _) => .ok st := by
  induction chunks generalizing st with
  | nil =>
    have hlt := hs.bytesIn
    rw [List.flatten_nil, List.length_nil] at hlen
    omega
  | cons c cs ih =>
    rw [List.flatten_cons, List.length_append] at hlen
    have hbuf := hs.buf
    have hlt := hs.bytesIn
    unfold streamed
    rcases enqueue_cases hs c with ⟨hlong, -⟩ | ⟨hpart, he⟩ | ⟨hfull, he⟩
    · omega
    · -- The chunk waits, and the rest of the window starts behind it.
      have hs' : n.Sized (stored st c) :=
        ⟨(length_stored (by omega)).trans hs.buf, hpart, hs.outputs⟩
      have hfront : (stored st c).buf.take (stored st c).bytesIn ++ cs.flatten =
          st.buf.take st.bytesIn ++ (c :: cs).flatten := by
        show (st.buf.take st.bytesIn ++ c ++ st.buf.drop _).take (st.bytesIn + c.length) ++ _ = _
        rw [List.take_append_of_le_length (by simp; omega),
          List.take_of_length_le (by simp), List.flatten_cons, List.append_assoc]
      rw [he]
      show n.streamed (stored st c) cs = _
      rw [ih hs' (by show st.bytesIn + c.length + _ = _; omega), hfront]
      rfl
    -- The window is full: what is left of the chunks is empty.
    · have hnil : cs.flatten = [] := List.eq_nil_of_length_eq_zero (by omega)
      have hfire : ({ stored st c with bytesIn := 0 } : PredecoderState σ) =
          { st with buf := st.buf.take st.bytesIn ++ (c :: cs).flatten, bytesIn := 0 } := by
        simp only [stored, List.flatten_cons, hnil, List.append_nil]
        rw [List.drop_of_length_le (by omega), List.append_nil]
      have hs' : n.Sized
          { st with buf := st.buf.take st.bytesIn ++ (c :: cs).flatten, bytesIn := 0 } := by
        refine ⟨?_, h.bufSize, hs.outputs⟩
        simp [hnil]
        omega
      rw [he, hfire]
      have hkeep := h.fire_sized hs'
      cases hf : n.fire
          { st with buf := st.buf.take st.bytesIn ++ (c :: cs).flatten, bytesIn := 0 } with
      | mk st' r =>
        rw [hf] at hkeep
        cases r with
        | error e => rfl
        | ok b => exact streamed_empty hkeep hnil

/-! ## Adding up -/

/-- The result of a decode has a value for every column of `H`, if it is read at all. -/
def Usable (H : SparseBinaryMatrix) (dr : InnerResult) : Prop :=
  dr.converged = true → H.numCols ≤ dr.result.length

/-- In every state a run of calls leaves with an empty buffer, a window streamed in any chunks has the
outcome of `execute_indexed` on the whole of it. Where the result of the inner decoder can be used,
that is one error pattern's two parts, and the corrections take in what was committed. -/
def AddsUp (n : Predecoder σ) (D O H : SparseBinaryMatrix) (s : σ) : Prop :=
  ∀ calls st, n.run (n.initialState s) calls = .ok st → st.bytesIn = 0 →
    ∀ chunks : List (List UInt8), chunks.flatten.length = n.bufSize →
      (n.streamed st chunks).map streamingOutput =
          (n.executeIndexed st chunks.flatten).2.map some ∧
        (Usable H (n.dec.decode st.dec (detectInto D.toCsr chunks.flatten)).2 →
          ∃ st' out, n.streamed st chunks = .ok st' ∧ streamingOutput st' = some out ∧
            st'.corr = xorBits st.corr out.preL.bits ∧
            Completes D O H chunks.flatten
              (predicted H.numCols (n.dec.decode st.dec (detectInto D.toCsr chunks.flatten)).2) out)

/-- A result that cannot be used is the only reason why a window has no outputs. -/
theorem Derives.windowOutputs_error (h : n.Derives D O H) {dets : List UInt8} {dr : InnerResult}
    {e : Fault} (hw : n.windowOutputs dets dr = .error e) :
    ¬ Usable H dr ∧ e = tooShort H.numCols dr := by
  have hwidth : max n.O.numCols H.toCsr.numCols = H.numCols := by
    rw [h.o_eq, toCsr_numCols, toCsr_numCols]
    exact Nat.max_eq_right h.cols
  unfold windowOutputs at hw
  split at hw
  · cases hw
  · next hc =>
    rw [deriveOutputs, h.src] at hw
    simp only [parityOutputs, h.h_eq, hwidth] at hw
    by_cases hlt : dr.result.length < H.numCols
    · rw [throwIf_of hlt, error_bind] at hw
      refine ⟨fun hu => ?_, (Except.error.inj hw).symm⟩
      have := hu (by simpa using hc)
      omega
    · rw [throwIf_of_not hlt] at hw
      cases hw

theorem tooShort_ne_shotTooShort (width : Nat) (dr : InnerResult) (m : List UInt8) :
    tooShort width dr ≠ n.shotTooShort m := by
  intro h
  simp only [tooShort, shotTooShort, outOfRange, Error.outOfRange, Fault.thrown.injEq,
    Error.mk.injEq, true_and] at h
  have hchars := congrArg String.toList h
  simp only [String.toList_append, List.append_assoc, List.append_cancel_left_eq] at hchars
  have hreturned : "decoder returned ".toList = 'd' :: "ecoder returned ".toList := by decide
  have hshot : "shot has ".toList = 's' :: "hot has ".toList := by decide
  rw [hreturned, hshot, List.cons_append, List.cons_append, List.cons.injEq] at hchars
  exact absurd hchars.1 (by decide)

/-- A window that is as long as `D` is wide. -/
theorem Derives.addsUp_of_fits (h : n.Derives D O H) (s : σ) (hfit : D.numCols ≤ n.bufSize) :
    n.AddsUp D O H s := by
  intro calls st hrun hempty chunks hlen
  have hs := h.run_sized (h.initialState s) hrun
  have hd : detectChecked n.D chunks.flatten = .ok (detectInto D.toCsr chunks.flatten) := by
    rw [h.d_eq]
    exact detectChecked_eq_ok (by omega)
  have hshot := @executeIndexed_spec _ n st _ chunks.flatten (by rw [h.d_eq, toCsr_numCols]; omega) hd
  have hs' : n.Sized { st with buf := chunks.flatten, bytesIn := 0 } := ⟨hlen, h.bufSize, hs.outputs⟩
  have hstream := @streamed_window _ _ _ _ _ _ h hs chunks (by omega)
  rw [hempty, List.take_zero, List.nil_append] at hstream
  rw [hshot, hstream]
  rcases fire_spec hs' hd with ⟨out, hw, hf⟩ | ⟨e, st', hw, hf⟩
  · rw [hf, hw]
    exact ⟨rfl, fun _ => ⟨_, out, rfl, rfl, rfl, h.completes hw⟩⟩
  · rw [hf, hw]
    exact ⟨rfl, fun hu => absurd hu (h.windowOutputs_error hw).1⟩

/-- A window that is shorter: as one shot it is refused, and as a stream it is not. -/
theorem Derives.not_addsUp_of_wide (h : n.Derives D O H) (s : σ) (hwide : n.bufSize < D.numCols) :
    ¬ n.AddsUp D O H s := by
  intro hadds
  have hs := h.initialState s
  have hlen : [List.replicate n.bufSize (0 : UInt8)].flatten.length = n.bufSize := by simp
  have hout := (hadds [] _ rfl rfl [List.replicate n.bufSize 0] hlen).1
  have hstream := @streamed_window _ _ _ _ _ _ h hs [List.replicate n.bufSize 0]
    (by rw [hlen]; exact Nat.zero_add _)
  have hshot : (n.executeIndexed (n.initialState s) [List.replicate n.bufSize 0].flatten).2 =
      .error (n.shotTooShort [List.replicate n.bufSize 0].flatten) := by
    unfold executeIndexed
    rw [if_pos (by rw [hlen, h.d_eq, toCsr_numCols]; exact hwide)]
  rw [hstream, hshot] at hout
  clear hstream hshot
  have hs' : n.Sized { n.initialState s with
      buf := (n.initialState s).buf.take (n.initialState s).bytesIn ++
        [List.replicate n.bufSize 0].flatten
      bytesIn := 0 } := ⟨by simp [Predecoder.initialState], h.bufSize, hs.outputs⟩
  cases hd : detectChecked n.D ((n.initialState s).buf.take (n.initialState s).bytesIn ++
      [List.replicate n.bufSize 0].flatten) with
  | error e =>
    -- The stream has read past the buffer.
    simp only [fire, hd, Except.map, shotTooShort, outOfRange, Except.error.injEq] at hout
    rw [hout] at hd
    exact detectChecked_ne_thrown _ hd
  | ok dets =>
    rcases fire_spec hs' hd with ⟨out, hw, hf⟩ | ⟨e, st', hw, hf⟩
    · rw [hf] at hout
      cases hout
    · rw [hf] at hout
      rw [(h.windowOutputs_error hw).2] at hout
      exact tooShort_ne_shotTooShort _ _ _ (Except.error.inj hout)

end Predecoder

/-- A pre-decoder that derives its residual from the parity checks adds up, from every state and
streamed in any chunks, exactly when its window holds every measurement that `D` may read. -/
theorem predecoder_addsUp {σ : Type} {n : Predecoder σ} (D O H : SparseBinaryMatrix)
    (dec : PredecoderInner σ) (spr rounds numMeasurements : Nat) (s : σ)
    (h : Predecoder.create .parityCheck (some D) (some O) (some H) (some dec) spr rounds
      numMeasurements = .ok n) :
    n.AddsUp D O H s ↔
      D.numCols ≤ if numMeasurements ≠ 0 then numMeasurements else rounds * spr := by
  have hn := Predecoder.create_derives h
  have hsize : n.bufSize = if numMeasurements ≠ 0 then numMeasurements else rounds * spr := by
    simp only [Predecoder.create, Predecoder.createFrom, bind_eq_ok] at h
    obtain ⟨_, -, _, -, _, -, _, -, _, -, _, -, hok⟩ := h
    cases hok
    rfl
  rw [← hsize]
  constructor
  · intro hadds
    by_contra hlt
    exact hn.not_addsUp_of_wide s (not_le.mp hlt) hadds
  · exact hn.addsUp_of_fits s

/-! ## Two small windows -/

def oneDetector (more : Fin 2) : SparseBinaryMatrix := .ofGroups .csr 1 (more + 1) [[0]]

/-- Predicts its only fault. -/
def certainDecoder : PredecoderInner Unit where
  resultType := .errors
  requestsResidualDetectors := false
  syndromeSize := 1
  blockSize := 1
  decode := fun _ _ => ((), ⟨true, [.finite 1], none⟩)
  reset := id

theorem predecoder_addsUp_oneDetector :
    ∃ n, Predecoder.create .parityCheck (some (oneDetector 0)) (some (oneDetector 0))
        (some (oneDetector 0)) (some certainDecoder) 1 1 0 = .ok n ∧
      n.AddsUp (oneDetector 0) (oneDetector 0) (oneDetector 0) () :=
  ⟨_, rfl, (predecoder_addsUp (oneDetector 0) (oneDetector 0) (oneDetector 0) certainDecoder 1 1 0 ()
    rfl).mpr (by decide)⟩

/-- One measurement a window, and a `D` of two: the stream publishes its outputs, the shot is
refused. -/
theorem not_predecoder_addsUp :
    ∃ n, Predecoder.create .parityCheck (some (oneDetector 1)) (some (oneDetector 0))
        (some (oneDetector 0)) (some certainDecoder) 1 1 0 = .ok n ∧
      (n.streamed (n.initialState ()) [[1]]).map Predecoder.streamingOutput =
        .ok (some ⟨⟨[true], true⟩, [0]⟩) ∧
      (n.executeIndexed (n.initialState ()) [1]).2 = .error (.thrown (.outOfRange
        "predecoder_node: shot has 1 measurements, D needs 2")) ∧
      ¬ n.AddsUp (oneDetector 1) (oneDetector 0) (oneDetector 0) () := by
  refine ⟨_, rfl, by decide +kernel, by decide +kernel, fun h => ?_⟩
  have hout := (h [] _ rfl rfl [[1]] rfl).1
  revert hout
  decide +kernel

end CudaqQec
