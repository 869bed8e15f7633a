import CudaqQec.Graph.Progress

/-!
# Nodes that forward a stream

A `streaming_decoder_node` hands its decoder the chunks of a stream as they come, and publishes what the
decoder's frame has changed by. A decoder that ends its own shots says how many rounds it has committed,
and every publication then reports the rounds it covers: of the shot, after those of the shots before it.

* `StreamingDecoderNode.create`: the constructor.
* `enqueue`, `enqueueUntagged`, `flush`: what a tagged chunk, an untagged one and the end of a stream do.
* `recordCoverage`: the rounds that a publication covers.
-/

namespace CudaqQec

open Frames

/-- A decoder that is fed a stream, with whatever state it keeps. An untagged chunk comes without a type. -/
structure StreamDecoder (σ : Type) where
  numObservables : Nat
  numMsynPerDecode : Nat
  enqueueSyndrome : σ → List UInt8 → Option RoundType → Bool × σ
  getObsCorrections : σ → List UInt8 × σ
  resetDecoder : σ → σ
  length_getObsCorrections : ∀ dec, (getObsCorrections dec).1.length = numObservables

/-- `streaming_correction_provider`, which a decoder may be as well. A peek may end a complete shot. -/
structure CorrectionProvider (σ : Type) (numObservables : Nat) where
  peekObsCorrections : σ → List UInt8 × σ
  finalizeObsCorrections : σ → List UInt8 × σ
  finalizedRoundCount : σ → Option Nat
  committedRoundCount : σ → Option Nat
  length_peekObsCorrections : ∀ dec, (peekObsCorrections dec).1.length = numObservables
  length_finalizeObsCorrections : ∀ dec, (finalizeObsCorrections dec).1.length = numObservables

/-- A `streaming_decoder_node`, as its constructor leaves it. -/
structure StreamingDecoderNode (σ : Type) where
  decoder : StreamDecoder σ
  provider : Option (CorrectionProvider σ decoder.numObservables)
  spr : Nat
  numRounds : Nat
  exact : Bool
  spr_pos : 0 < spr
  provider_of_exact : exact = true → provider.isSome = true
  numRounds_pos : exact = true → 0 < numRounds

structure StreamOutcome where
  bits : List UInt8
  converged : Bool
  deriving DecidableEq

/-- What a node keeps of its stream. -/
structure StreamingDecoderState (σ : Type) where
  dec : σ
  correctionFrame : List UInt8
  lastOutput : StreamOutcome
  outputValid : Bool
  pendingInnerInput : Bool
  untaggedFill : Nat
  completedRounds : Nat
  shotCommitted : Nat
  coverage : Option CommittedCoverage

namespace StreamingDecoderNode

variable {σ : Type}

/-! ## Construction and resets -/

/-- `streaming_schedule`: the rounds of a window, where all rounds are equally wide. -/
def streamingSchedule (numMsynPerDecode spr : Nat) : Option Nat :=
  if spr = 0 ∨ numMsynPerDecode = 0 ∨ numMsynPerDecode % spr ≠ 0 then none
  else some (u32 (numMsynPerDecode / spr))

/-- The constructor, for a `D` of `dCols` columns and an `O` of `oRows` rows. -/
def create (dCols oRows : Nat) (decoder : StreamDecoder σ)
    (provider : Option (CorrectionProvider σ decoder.numObservables)) (spr : Nat) (equalRounds : Bool)
    (numRounds : Nat) : Except Error (StreamingDecoderNode σ) :=
  if hspr : spr = 0 ∨ equalRounds = true ∧ dCols % spr ≠ 0 then
    .error (.invalidArgument "streaming node syndrome count must be divisible by its round size")
  else
    let schedule := streamingSchedule dCols spr
    let exact := !equalRounds && provider.isSome && schedule.isNone
    let rounds := if provider.isSome ∧ numRounds = 0 then schedule.getD 0 else numRounds
    if hrounds : exact = true ∧ rounds = 0 then
      .error (.invalidArgument
        "streaming node over rounds of different widths needs its shot's round count")
    else if decoder.numObservables ≠ oRows then
      .error (.invalidArgument "streaming node decoder and O must declare the same observable count")
    else if decoder.numMsynPerDecode ≠ dCols then
      .error (.invalidArgument "streaming node decoder syndrome size must match D column count")
    else .ok {
      decoder := decoder
      provider := provider
      spr := spr
      numRounds := rounds
      exact := exact
      spr_pos := Nat.pos_of_ne_zero fun h => hspr (.inl h)
      provider_of_exact := fun h => by
        rw [Bool.and_eq_true, Bool.and_eq_true] at h
        exact h.1.2
      numRounds_pos := fun h => Nat.pos_of_ne_zero fun h' => hrounds ⟨h, h'⟩ }

variable (n : StreamingDecoderNode σ)

def resetStreamingState (st : StreamingDecoderState σ) : StreamingDecoderState σ :=
  { st with
    correctionFrame := zeros n.decoder.numObservables
    pendingInnerInput := false
    outputValid := false
    untaggedFill := 0
    completedRounds := 0
    shotCommitted := 0
    coverage := none }

def resetDecoder (st : StreamingDecoderState σ) : StreamingDecoderState σ :=
  let st := n.resetStreamingState st
  { st with dec := n.decoder.resetDecoder st.dec }

/-! ## What a decode commits -/

def commitsMore (st : StreamingDecoderState σ) : Bool :=
  match n.provider with
  | none => false
  | some p => decide (st.shotCommitted < (p.committedRoundCount st.dec).getD 0)

/-- `publish_inner_frame`, with the decoder as reading the frame leaves it. -/
def publishInnerFrame (current : List UInt8 × σ) (st : StreamingDecoderState σ) :
    StreamingDecoderState σ :=
  { st with
    dec := current.2
    lastOutput := ⟨xorInto current.1 st.correctionFrame, true⟩
    correctionFrame := current.1
    outputValid := true }

def recordCoverage (p : CorrectionProvider σ n.decoder.numObservables) (endsShot : Bool)
    (rounds : Option Nat) (st : StreamingDecoderState σ) : StreamingDecoderState σ :=
  let before := st.shotCommitted
  let start := st.completedRounds
  let committed := max before
    (if endsShot then rounds.getD before else (p.committedRoundCount st.dec).getD 0)
  let coverage : CommittedCoverage :=
    if !n.exact then ⟨start, size64 (start + committed)⟩
    -- the rounds are unknown: the value joins the output whole
    else if endsShot ∧ rounds = none then ⟨size64 (start + before), wholeShot⟩
    else ⟨size64 (start + before), size64 (start + committed)⟩
  { st with
    coverage := some coverage
    shotCommitted := if endsShot then 0 else committed }

def captureInnerCorrections (final : Bool) (st : StreamingDecoderState σ) : StreamingDecoderState σ :=
  match n.provider with
  | none => publishInnerFrame (n.decoder.getObsCorrections st.dec) st
  | some p =>
    let st := publishInnerFrame
      (if final then p.finalizeObsCorrections st.dec else p.peekObsCorrections st.dec) st
    let st := n.recordCoverage p final (if final then p.finalizedRoundCount st.dec else none) st
    if final then { st with completedRounds := 0 } else st

/-- `enqueue`, once the decoder has the chunk. `fired` is whether it reports a decode. -/
def publishTagged (type : RoundType) (fired : Bool) (st : StreamingDecoderState σ) :
    Bool × StreamingDecoderState σ :=
  match n.provider, type with
  | some p, .bulk =>
    -- a provisional frame is published when it commits more rounds
    if n.commitsMore st then
      let st := publishInnerFrame (p.peekObsCorrections st.dec) st
      let closed := p.finalizedRoundCount st.dec
      let st := n.recordCoverage p closed.isSome closed st
      (true, { st with
        completedRounds := match closed with
          | none => st.completedRounds
          | some rounds => size64 (st.completedRounds + rounds)
        pendingInnerInput := closed.isNone })
    else (false, { st with pendingInnerInput := true })
  | _, _ =>
    if fired then
      (true, { n.captureInnerCorrections (decide (type = .final)) st with pendingInnerInput := false })
    else (false, { st with pendingInnerInput := true })

/-! ## Tagged and untagged chunks -/

def enqueue (msyn : List UInt8) (type : RoundType) (st : StreamingDecoderState σ) :
    Bool × StreamingDecoderState σ :=
  if msyn = [] then (false, st)
  else
    let r := n.decoder.enqueueSyndrome st.dec msyn (some type)
    n.publishTagged type r.1 { st with untaggedFill := 0, dec := r.2 }

/-- `enqueue_untagged`, once the decoder has a chunk that does or does not complete its shot. -/
def publishUntagged (shotEnd fired : Bool) (st : StreamingDecoderState σ) :
    Bool × StreamingDecoderState σ :=
  match n.provider, shotEnd with
  | some p, false =>
    if n.commitsMore st then
      let st := publishInnerFrame (p.peekObsCorrections st.dec) st
      (true, { n.recordCoverage p false none st with pendingInnerInput := true })
    else (false, { st with pendingInnerInput := true })
  | some p, true =>
    if fired then
      let st := publishInnerFrame (n.decoder.getObsCorrections st.dec) st
      -- the shot is as wide as `D`, so its rounds are known even when they are not reported
      let rounds := (p.finalizedRoundCount st.dec).getD n.numRounds
      let st := n.recordCoverage p true (some rounds) st
      (true, { st with
        completedRounds := size64 (st.completedRounds + rounds)
        pendingInnerInput := false })
    else (false, { st with shotCommitted := 0, pendingInnerInput := true })
  | none, _ =>
    if fired then
      (true, { publishInnerFrame (n.decoder.getObsCorrections st.dec) st with pendingInnerInput := false })
    else (false, { st with
      shotCommitted := if shotEnd then 0 else st.shotCommitted
      pendingInnerInput := true })

def endsUntagged (msyn : List UInt8) (st : StreamingDecoderState σ) : Bool :=
  decide (n.decoder.numMsynPerDecode ≤ st.untaggedFill + msyn.length)

def enqueueUntagged (msyn : List UInt8) (st : StreamingDecoderState σ) : Bool × StreamingDecoderState σ :=
  if msyn = [] then (false, st)
  else
    let shotEnd := n.endsUntagged msyn st
    let r := n.decoder.enqueueSyndrome st.dec msyn none
    n.publishUntagged shotEnd r.1 { st with
      untaggedFill := if shotEnd then 0 else st.untaggedFill + msyn.length
      dec := r.2 }

def flush (st : StreamingDecoderState σ) : Bool × StreamingDecoderState σ :=
  if st.pendingInnerInput then
    (true, { n.captureInnerCorrections true st with pendingInnerInput := false })
  else (false, st)

end StreamingDecoderNode

/-! ## What a consumer reads -/

namespace StreamingDecoderState

variable {σ : Type} (st : StreamingDecoderState σ)

def corrections : List UInt8 := st.correctionFrame

def streamingCoverage : Option CommittedCoverage := st.coverage

end StreamingDecoderState

end CudaqQec
