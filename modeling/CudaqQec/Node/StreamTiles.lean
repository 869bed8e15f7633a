import CudaqQec.Node.Streaming

/-!
# Publications tile their stream

A node that reports exact intervals publishes its stream piece by piece: each interval begins where the one
before it ended, and what was published adds up to the frame. A chunk that completes an untagged shot must
then be reported by the decoder, unless nothing of the shot has been published: otherwise the node forgets
what it has covered of the shot, and the next shot begins behind it.

* `StreamingDecoderNode.publications`: what the calls of a stream publish.
* `StreamRun`: calls whose shots never commit more rounds than they have.
* `ReportsPublished`: no shot that is partly published ends unreported.
* `publications_tile`: the intervals and the deltas of every run.
-/

namespace CudaqQec

open Frames

inductive StreamCall where
  | tagged (msyn : List UInt8) (type : RoundType)
  | untagged (msyn : List UInt8)
  | flush
  deriving DecidableEq

structure StreamPublication where
  coverage : Option CommittedCoverage
  delta : List UInt8
  endsStream : Bool
  deriving DecidableEq

def StreamCall.endsStream : StreamCall → Bool
  | tagged _ type => decide (type = .final)
  | untagged _ => false
  | flush => true

/-- Intervals that follow on one another, from a round on. A stream that has ended is followed by one that
begins at round 0. -/
@[grind =] def TileFrom : Nat → List StreamPublication → Prop
  | _, [] => True
  | start, p :: ps => ∃ c, p.coverage = some c ∧ c.begin = start ∧
      TileFrom (if p.endsStream then 0 else c.stop) ps

namespace StreamingDecoderNode

variable {σ : Type} (n : StreamingDecoderNode σ) (p : CorrectionProvider σ n.decoder.numObservables)
  {st : StreamingDecoderState σ} {rounds : Nat} {c : StreamCall} {calls : List StreamCall}

def call : StreamCall → StreamingDecoderState σ → Bool × StreamingDecoderState σ
  | .tagged msyn type => n.enqueue msyn type
  | .untagged msyn => n.enqueueUntagged msyn
  | .flush => n.flush

@[grind =] def publications : StreamingDecoderState σ → List StreamCall → List StreamPublication
  | _, [] => []
  | st, c :: calls =>
    let r := n.call c st
    let rest := publications r.2 calls
    if r.1 then ⟨r.2.streamingCoverage, r.2.lastOutput.bits, c.endsStream⟩ :: rest else rest

def after (st : StreamingDecoderState σ) (calls : List StreamCall) : StreamingDecoderState σ :=
  calls.foldl (fun st c => (n.call c st).2) st

/-! ## Runs -/

/-- An untagged chunk lies within what is left of its shot. -/
def Fits (st : StreamingDecoderState σ) : StreamCall → Prop
  | .untagged msyn => st.untaggedFill + msyn.length ≤ n.decoder.numMsynPerDecode
  | _ => True

/-- The call ends a shot but not the stream: the peek after a tagged chunk completes it, or the chunk is the
last one of the width of `D`. -/
def endsShot (st : StreamingDecoderState σ) : StreamCall → Bool
  | .tagged msyn .bulk =>
    let r := n.enqueue msyn .bulk st
    r.1 && (p.finalizedRoundCount r.2.dec).isSome
  | .untagged msyn => decide (msyn ≠ []) && n.endsUntagged msyn st
  | _ => false

/-- The rounds that a shot turns out to have as it ends. Those of an untagged one are known only where the
decoder reports its decode. -/
def shotRounds (st : StreamingDecoderState σ) (c : StreamCall) : Option Nat :=
  let closed := p.finalizedRoundCount (n.call c st).2.dec
  match c with
  | .untagged msyn =>
    if (n.decoder.enqueueSyndrome st.dec msyn none).1 then some (closed.getD n.numRounds) else none
  | _ => closed

/-- Calls during which the committed rounds of a shot never exceed the rounds it has, of which the shot
under way has `rounds`. -/
inductive StreamRun : StreamingDecoderState σ → Nat → List StreamCall → Prop where
  | nil (st : StreamingDecoderState σ) (rounds : Nat) : StreamRun st rounds []
  | goesOn {st : StreamingDecoderState σ} {rounds : Nat} {c : StreamCall} {calls : List StreamCall}
      (fits : n.Fits st c) (underway : n.endsShot p st c = false)
      (unended : c.endsStream = true → (n.call c st).1 = false)
      (within : (p.committedRoundCount (n.call c st).2.dec).getD 0 ≤ rounds)
      (rest : StreamRun (n.call c st).2 rounds calls) : StreamRun st rounds (c :: calls)
  | endsShot {st : StreamingDecoderState σ} {rounds rounds' : Nat} {c : StreamCall}
      {calls : List StreamCall} (fits : n.Fits st c) (ended : n.endsShot p st c = true)
      (counted : ∀ r, n.shotRounds p st c = some r → r = rounds)
      (rest : StreamRun (n.call c st).2 rounds' calls) : StreamRun st rounds (c :: calls)
  | endsStream {st : StreamingDecoderState σ} {rounds rounds' : Nat} {c : StreamCall}
      {calls : List StreamCall} (last : c.endsStream = true) (published : (n.call c st).1 = true)
      (rest : StreamRun (n.call c st).2 rounds' calls) : StreamRun st rounds (c :: calls)

@[grind =] def ReportsPublished : StreamingDecoderState σ → List StreamCall → Prop
  | _, [] => True
  | st, c :: calls =>
    (∀ msyn, c = .untagged msyn → msyn ≠ [] → n.endsUntagged msyn st = true → 0 < st.shotCommitted →
      (n.decoder.enqueueSyndrome st.dec msyn none).1 = true) ∧
    ReportsPublished (n.call c st).2 calls

/-! ## Where the next interval begins -/

def uncovered (st : StreamingDecoderState σ) : Nat := size64 (st.completedRounds + st.shotCommitted)

theorem size64_size64 (m : Nat) : size64 (size64 m) = size64 m := Nat.mod_mod ..

variable {n p}

/-- A provisional publication covers what it commits beyond the rounds covered before. -/
theorem recordCoverage_goesOn (hexact : n.exact = true) (st : StreamingDecoderState σ) :
    let st' := n.recordCoverage p false none st
    st'.coverage = some ⟨uncovered st, uncovered st'⟩ ∧
      st'.shotCommitted = max st.shotCommitted ((p.committedRoundCount st.dec).getD 0) := by
  simp [recordCoverage, hexact, uncovered]

/-- A shot that ends is covered up to its last round, as long as no more was covered before. -/
theorem recordCoverage_ends (hexact : n.exact = true) (st : StreamingDecoderState σ) {r : Nat}
    (hle : st.shotCommitted ≤ r) :
    let st' := n.recordCoverage p true (some r) st
    st'.coverage = some ⟨uncovered st, size64 (st.completedRounds + r)⟩ ∧ st'.shotCommitted = 0 := by
  simp [recordCoverage, hexact, uncovered, Nat.max_eq_right hle]

/-- However a stream ends, what it publishes last begins where the rest ended. -/
theorem recordCoverage_begin (hexact : n.exact = true) (st : StreamingDecoderState σ)
    (closed : Option Nat) :
    let st' := n.recordCoverage p true closed st
    (∃ stop, st'.coverage = some ⟨uncovered st, stop⟩) ∧ st'.shotCommitted = 0 := by
  cases closed <;> simp [recordCoverage, hexact, uncovered]

/-! ## One call -/

@[simp] theorem recordCoverage_dec (ends : Bool) (closed : Option Nat) (st : StreamingDecoderState σ) :
    (n.recordCoverage p ends closed st).dec = st.dec := rfl

/-- A call in the middle of a shot publishes what it commits beyond the rounds covered before, or leaves
the rounds covered as they are. -/
structure GoesOn (p : CorrectionProvider σ n.decoder.numObservables) (st : StreamingDecoderState σ)
    (r : Bool × StreamingDecoderState σ) : Prop where
  published : r.1 = true → r.2.coverage = some ⟨uncovered st, uncovered r.2⟩
  withheld : r.1 = false → uncovered r.2 = uncovered st
  committed : r.2.shotCommitted ≤ max st.shotCommitted ((p.committedRoundCount r.2.dec).getD 0)

/-- A call that publishes nothing. -/
theorem goesOn_withheld {st' : StreamingDecoderState σ} (hu : uncovered st' = uncovered st)
    (hs : st'.shotCommitted = st.shotCommitted) : GoesOn p st (false, st') :=
  ⟨nofun, fun _ => hu, hs ▸ Nat.le_max_left ..⟩

theorem goesOn_provisional (hexact : n.exact = true) (st : StreamingDecoderState σ) (pending : Bool) :
    GoesOn p st (true, { n.recordCoverage p false none
      (publishInnerFrame (p.peekObsCorrections st.dec) st) with pendingInnerInput := pending }) := by
  obtain ⟨hcoverage, hcommitted⟩ :=
    recordCoverage_goesOn (p := p) hexact (publishInnerFrame (p.peekObsCorrections st.dec) st)
  exact ⟨fun _ => hcoverage, nofun, hcommitted.le⟩

theorem GoesOn.of_fed {fed : StreamingDecoderState σ} {r : Bool × StreamingDecoderState σ}
    (h : GoesOn p fed r) (hu : uncovered fed = uncovered st) (hs : fed.shotCommitted = st.shotCommitted) :
    GoesOn p st r :=
  ⟨hu ▸ h.published, hu ▸ h.withheld, hs ▸ h.committed⟩

theorem goesOn_publishTagged (hexact : n.exact = true) (hp : n.provider = some p) (fired : Bool)
    (hopen : (n.publishTagged .bulk fired st).1 = true →
      p.finalizedRoundCount (n.publishTagged .bulk fired st).2.dec = none) :
    GoesOn p st (n.publishTagged .bulk fired st) := by
  revert hopen
  unfold publishTagged
  rw [hp]
  by_cases hmore : n.commitsMore st = true
  · simp only [if_pos hmore, recordCoverage_dec]
    intro hopen
    rw [hopen trivial]
    exact goesOn_provisional hexact st true
  · simp only [if_neg hmore]
    exact fun _ => goesOn_withheld rfl rfl

theorem goesOn_publishUntagged (hexact : n.exact = true) (hp : n.provider = some p) (fired : Bool) :
    GoesOn p st (n.publishUntagged false fired st) := by
  unfold publishUntagged
  rw [hp]
  by_cases hmore : n.commitsMore st = true
  · simp only [if_pos hmore]
    exact goesOn_provisional hexact st true
  · simp only [if_neg hmore]
    exact goesOn_withheld rfl rfl

/-- FINAL publishes nothing where the decoder reports no decode. -/
theorem goesOn_final (hp : n.provider = some p) (fired : Bool)
    (hun : (n.publishTagged .final fired st).1 = false) : GoesOn p st (n.publishTagged .final fired st) := by
  revert hun
  unfold publishTagged
  rw [hp]
  cases fired with
  | false => exact fun _ => goesOn_withheld rfl rfl
  | true => exact nofun

theorem goesOn_call (hexact : n.exact = true) (hp : n.provider = some p)
    (hend : n.endsShot p st c = false) (hun : c.endsStream = true → (n.call c st).1 = false) :
    GoesOn p st (n.call c st) := by
  cases c with
  | tagged msyn type =>
    change GoesOn p st (n.enqueue msyn type st)
    by_cases hmsyn : msyn = []
    · rw [enqueue, if_pos hmsyn]
      exact goesOn_withheld rfl rfl
    cases type with
    -- a tagged chunk that is not the last commits what is final so far
    | bulk =>
      have hopen : ((n.enqueue msyn .bulk st).1 &&
          (p.finalizedRoundCount (n.enqueue msyn .bulk st).2.dec).isSome) = false := hend
      rw [enqueue, if_neg hmsyn] at hopen ⊢
      refine (goesOn_publishTagged hexact hp _ fun hpub => ?_).of_fed rfl rfl
      rw [hpub, Bool.true_and, Option.isSome_eq_false_iff, Option.isNone_iff_eq_none] at hopen
      exact hopen
    -- the last chunk publishes nothing here, or it would end the stream
    | final =>
      have hnone := hun rfl
      change (n.enqueue msyn .final st).1 = false at hnone
      rw [enqueue, if_neg hmsyn] at hnone
      rw [enqueue, if_neg hmsyn]
      exact (goesOn_final hp _ hnone).of_fed rfl rfl
  | untagged msyn =>
    change GoesOn p st (n.enqueueUntagged msyn st)
    by_cases hmsyn : msyn = []
    · rw [enqueueUntagged, if_pos hmsyn]
      exact goesOn_withheld rfl rfl
    have hopen : n.endsUntagged msyn st = false := by
      simpa [endsShot, hmsyn] using hend
    rw [enqueueUntagged, if_neg hmsyn, hopen]
    exact (goesOn_publishUntagged hexact hp _).of_fed rfl rfl
  | flush =>
    have hnone := hun rfl
    change GoesOn p st (n.flush st)
    change (n.flush st).1 = false at hnone
    unfold flush at hnone ⊢
    split at hnone
    · cases hnone
    · next hpending =>
      rw [if_neg hpending]
      exact goesOn_withheld rfl rfl

/-! ## The end of a shot or of a stream -/

/-- The rounds of a shot that has ended count among those before the next one. -/
theorem uncovered_counted {st' : StreamingDecoderState σ} {m : Nat} (hrounds : st'.completedRounds = size64 m)
    (hshot : st'.shotCommitted = 0) : uncovered st' = size64 m := by
  rw [uncovered, hrounds, hshot, Nat.add_zero, size64_size64]

theorem ends_published (hexact : n.exact = true) (fed : StreamingDecoderState σ) {r : Nat}
    (hle : fed.shotCommitted ≤ r) (pending : Bool) :
    let st' : StreamingDecoderState σ := { n.recordCoverage p true (some r) fed with
      completedRounds := size64 (fed.completedRounds + r)
      pendingInnerInput := pending }
    GoesOn p fed (true, st') ∧ st'.shotCommitted = 0 := by
  intro st'
  obtain ⟨hcoverage, hcommitted⟩ := recordCoverage_ends (p := p) hexact fed hle
  have hnext : uncovered st' = size64 (fed.completedRounds + r) := uncovered_counted rfl hcommitted
  have hzero : st'.shotCommitted = 0 := hcommitted
  refine ⟨⟨fun _ => ?_, nofun, ?_⟩, hzero⟩
  · show st'.coverage = some ⟨uncovered fed, uncovered st'⟩
    rw [hnext]
    exact hcoverage
  · show st'.shotCommitted ≤ _
    rw [hzero]
    exact Nat.zero_le _

theorem ends_publishTagged (hexact : n.exact = true) (hp : n.provider = some p) (fired : Bool) {r : Nat}
    (hpub : (n.publishTagged .bulk fired st).1 = true)
    (hclosed : p.finalizedRoundCount (n.publishTagged .bulk fired st).2.dec = some r)
    (hle : st.shotCommitted ≤ r) :
    GoesOn p st (n.publishTagged .bulk fired st) ∧ (n.publishTagged .bulk fired st).2.shotCommitted = 0 := by
  revert hpub hclosed
  unfold publishTagged
  rw [hp]
  by_cases hmore : n.commitsMore st = true
  · simp only [if_pos hmore, recordCoverage_dec]
    intro _ hclosed
    rw [hclosed]
    obtain ⟨hgoes, hzero⟩ := ends_published (p := p) hexact
      (publishInnerFrame (p.peekObsCorrections st.dec) st) hle false
    exact ⟨hgoes.of_fed rfl rfl, hzero⟩
  · simp only [if_neg hmore]
    intro hpub
    cases hpub

/-- A chunk that completes an untagged shot: the decoder reports it, or nothing of the shot was
published. -/
theorem ends_publishUntagged (hexact : n.exact = true) (hp : n.provider = some p)
    (st : StreamingDecoderState σ) (fired : Bool)
    (hle : fired = true → st.shotCommitted ≤
      (p.finalizedRoundCount (n.publishUntagged true fired st).2.dec).getD n.numRounds)
    (hreported : 0 < st.shotCommitted → fired = true) :
    GoesOn p st (n.publishUntagged true fired st) ∧
      (n.publishUntagged true fired st).2.shotCommitted = 0 := by
  revert hle
  unfold publishUntagged
  rw [hp]
  cases fired with
  | true =>
    intro hle
    obtain ⟨hgoes, hzero⟩ := ends_published (p := p) hexact
      (publishInnerFrame (n.decoder.getObsCorrections st.dec) st) (hle rfl) false
    exact ⟨hgoes.of_fed rfl rfl, hzero⟩
  | false =>
    intro _
    have hzero : st.shotCommitted = 0 := by
      by_contra h
      cases hreported (Nat.pos_of_ne_zero h)
    refine ⟨goesOn_withheld ?_ hzero.symm, rfl⟩
    rw [uncovered, uncovered, hzero]

theorem endsShot_call (hexact : n.exact = true) (hp : n.provider = some p)
    (hend : n.endsShot p st c = true)
    (hle : ∀ r, n.shotRounds p st c = some r → st.shotCommitted ≤ r)
    (hreported : ∀ msyn, c = .untagged msyn → msyn ≠ [] → n.endsUntagged msyn st = true →
      0 < st.shotCommitted → (n.decoder.enqueueSyndrome st.dec msyn none).1 = true) :
    GoesOn p st (n.call c st) ∧ (n.call c st).2.shotCommitted = 0 := by
  cases c with
  | tagged msyn type =>
    cases type with
    | bulk =>
      obtain ⟨hpub, hclosed⟩ := (Bool.and_eq_true ..).mp hend
      obtain ⟨r, hr⟩ := Option.isSome_iff_exists.mp hclosed
      have hler := hle r hr
      change GoesOn p st (n.enqueue msyn .bulk st) ∧ (n.enqueue msyn .bulk st).2.shotCommitted = 0
      by_cases hmsyn : msyn = []
      · rw [enqueue, if_pos hmsyn] at hpub
        cases hpub
      · rw [enqueue, if_neg hmsyn] at hpub hr ⊢
        obtain ⟨hgoes, hzero⟩ := ends_publishTagged hexact hp _ hpub hr hler
        exact ⟨hgoes.of_fed rfl rfl, hzero⟩
    | final => cases hend
  | untagged msyn =>
    obtain ⟨hmsyn, hwidth⟩ := (Bool.and_eq_true ..).mp hend
    have hne : msyn ≠ [] := of_decide_eq_true hmsyn
    change GoesOn p st (n.enqueueUntagged msyn st) ∧ (n.enqueueUntagged msyn st).2.shotCommitted = 0
    have hle' : (n.decoder.enqueueSyndrome st.dec msyn none).1 = true → st.shotCommitted ≤
        (p.finalizedRoundCount (n.enqueueUntagged msyn st).2.dec).getD n.numRounds := fun hfired =>
      hle _ (if_pos hfired)
    rw [enqueueUntagged, if_neg hne, hwidth] at hle' ⊢
    let fed : StreamingDecoderState σ := { st with
      untaggedFill := 0
      dec := (n.decoder.enqueueSyndrome st.dec msyn none).2 }
    obtain ⟨hgoes, hzero⟩ := ends_publishUntagged hexact hp fed _ hle' (hreported msyn rfl hne hwidth)
    exact ⟨hgoes.of_fed rfl rfl, hzero⟩
  | flush => cases hend

/-- What ends a stream covers the rest of it, and the next one begins at round 0. -/
structure EndsStream (st st' : StreamingDecoderState σ) : Prop where
  coverage : ∃ stop, st'.coverage = some ⟨uncovered st, stop⟩
  completed : st'.completedRounds = 0
  committed : st'.shotCommitted = 0

theorem endsStream_capture (hexact : n.exact = true) (hp : n.provider = some p)
    (st : StreamingDecoderState σ) (pending : Bool) :
    EndsStream st { n.captureInnerCorrections true st with pendingInnerInput := pending } := by
  unfold captureInnerCorrections
  rw [hp]
  let fed := publishInnerFrame (p.finalizeObsCorrections st.dec) st
  obtain ⟨hcoverage, hzero⟩ := recordCoverage_begin (p := p) hexact fed (p.finalizedRoundCount fed.dec)
  exact ⟨hcoverage, rfl, hzero⟩

theorem endsStream_publishTagged (hexact : n.exact = true) (hp : n.provider = some p)
    (st : StreamingDecoderState σ) (fired : Bool) (hpub : (n.publishTagged .final fired st).1 = true) :
    EndsStream st (n.publishTagged .final fired st).2 := by
  revert hpub
  unfold publishTagged
  rw [hp]
  cases fired with
  | false => exact nofun
  | true => exact fun _ => endsStream_capture hexact hp st false

theorem endsStream_call (hexact : n.exact = true) (hp : n.provider = some p)
    (hlast : c.endsStream = true) (hpub : (n.call c st).1 = true) : EndsStream st (n.call c st).2 := by
  cases c with
  | tagged msyn type =>
    obtain rfl : type = .final := of_decide_eq_true hlast
    change (n.enqueue msyn .final st).1 = true at hpub
    show EndsStream st (n.enqueue msyn .final st).2
    by_cases hmsyn : msyn = []
    · rw [enqueue, if_pos hmsyn] at hpub
      cases hpub
    · rw [enqueue, if_neg hmsyn] at hpub ⊢
      let fed : StreamingDecoderState σ := { st with
        untaggedFill := 0
        dec := (n.decoder.enqueueSyndrome st.dec msyn (some .final)).2 }
      obtain ⟨hcoverage, hcompleted, hcommitted⟩ := endsStream_publishTagged hexact hp fed _ hpub
      exact ⟨hcoverage, hcompleted, hcommitted⟩
  | untagged msyn => cases hlast
  | flush =>
    change (n.flush st).1 = true at hpub
    show EndsStream st (n.flush st).2
    unfold flush at hpub ⊢
    split at hpub
    · next hpending =>
      rw [if_pos hpending]
      exact endsStream_capture hexact hp st false
    · cases hpub

/-! ## Runs of calls -/

theorem publications_cons_of_published (h : (n.call c st).1 = true) :
    n.publications st (c :: calls) =
      ⟨(n.call c st).2.coverage, (n.call c st).2.lastOutput.bits, c.endsStream⟩ ::
        n.publications (n.call c st).2 calls := by
  rw [publications, if_pos h]
  rfl

theorem publications_cons_of_withheld (h : (n.call c st).1 = false) :
    n.publications st (c :: calls) = n.publications (n.call c st).2 calls := by
  rw [publications, if_neg (Bool.eq_false_iff.mp h)]

/-- A call in the middle of a stream, before calls that go on where it ends. -/
theorem GoesOn.tileFrom (h : GoesOn p st (n.call c st))
    (hun : (n.call c st).1 = true → c.endsStream = false)
    (hrest : TileFrom (uncovered (n.call c st).2) (n.publications (n.call c st).2 calls)) :
    TileFrom (uncovered st) (n.publications st (c :: calls)) := by
  cases hpub : (n.call c st).1 with
  | true =>
    rw [publications_cons_of_published hpub]
    refine ⟨_, h.published hpub, rfl, ?_⟩
    rw [hun hpub]
    exact hrest
  | false =>
    rw [publications_cons_of_withheld hpub, ← h.withheld hpub]
    exact hrest

theorem endsStream_of_endsShot (h : n.endsShot p st c = true) : c.endsStream = false := by
  cases c with
  | tagged msyn type =>
    cases type with
    | bulk => rfl
    | final => cases h
  | untagged msyn => rfl
  | flush => cases h

/-- The first interval begins where the rounds covered so far end, and every later one where the one before
it ended. -/
theorem tileFrom_publications (hexact : n.exact = true) (hp : n.provider = some p)
    (hrun : n.StreamRun p st rounds calls) (hreports : n.ReportsPublished st calls)
    (hle : st.shotCommitted ≤ rounds) : TileFrom (uncovered st) (n.publications st calls) := by
  induction hrun with
  | nil => trivial
  | @goesOn st rounds c calls fits underway unended within rest ih =>
    have hgoes := goesOn_call hexact hp underway unended
    have hrest := ih hreports.2 (hgoes.committed.trans (max_le hle within))
    refine hgoes.tileFrom (fun hpub => ?_) hrest
    rw [← Bool.not_eq_true]
    intro hlast
    rw [unended hlast] at hpub
    cases hpub
  | @endsShot st rounds rounds' c calls fits ended counted rest ih =>
    obtain ⟨hgoes, hzero⟩ := endsShot_call hexact hp ended
      (fun r hr => (counted r hr).symm ▸ hle) hreports.1
    have hrest := ih hreports.2 (hzero ▸ Nat.zero_le _)
    exact hgoes.tileFrom (fun _ => endsStream_of_endsShot ended) hrest
  | @endsStream st rounds rounds' c calls last published rest ih =>
    obtain ⟨⟨stop, hcoverage⟩, hcompleted, hzero⟩ := endsStream_call hexact hp last published
    have hrest := ih hreports.2 (hzero ▸ Nat.zero_le _)
    rw [publications_cons_of_published published]
    refine ⟨_, hcoverage, rfl, ?_⟩
    rw [last, if_pos rfl]
    rwa [uncovered, hcompleted, hzero] at hrest

/-! ## What was published adds up to the frame -/

/-- What a call does to the frame: it publishes the change, or leaves the frame as it is. -/
structure Follows (n : StreamingDecoderNode σ) (st : StreamingDecoderState σ)
    (r : Bool × StreamingDecoderState σ) : Prop where
  width : r.2.correctionFrame.length = n.decoder.numObservables
  published : r.1 = true → xorInto st.correctionFrame r.2.lastOutput.bits = r.2.correctionFrame
  withheld : r.1 = false → r.2.correctionFrame = st.correctionFrame

theorem follows_withheld {st' : StreamingDecoderState σ}
    (hwidth : st.correctionFrame.length = n.decoder.numObservables)
    (hframe : st'.correctionFrame = st.correctionFrame) : Follows n st (false, st') :=
  ⟨hframe ▸ hwidth, nofun, fun _ => hframe⟩

theorem follows_published {st' : StreamingDecoderState σ} {current : List UInt8 × σ}
    (hwidth : st.correctionFrame.length = n.decoder.numObservables)
    (hcurrent : current.1.length = n.decoder.numObservables)
    (hframe : st'.correctionFrame = (publishInnerFrame current st).correctionFrame)
    (hbits : st'.lastOutput = (publishInnerFrame current st).lastOutput) : Follows n st (true, st') := by
  refine ⟨hframe ▸ hcurrent, fun _ => ?_, nofun⟩
  show xorInto st.correctionFrame st'.lastOutput.bits = st'.correctionFrame
  rw [hframe, hbits]
  show xorInto st.correctionFrame (xorInto current.1 st.correctionFrame) = current.1
  rw [xorInto_comm ((length_xorInto ..).trans (hcurrent.trans hwidth.symm)), xorInto_cancel]

/-- The frame after `recordCoverage` is the one before it. -/
theorem follows_capture (final pending : Bool)
    (hwidth : st.correctionFrame.length = n.decoder.numObservables) :
    Follows n st (true, { n.captureInnerCorrections final st with pendingInnerInput := pending }) := by
  unfold captureInnerCorrections
  split
  · exact follows_published hwidth (n.decoder.length_getObsCorrections st.dec) rfl rfl
  · next p hp =>
    cases final with
    | true => exact follows_published hwidth (p.length_finalizeObsCorrections st.dec) rfl rfl
    | false => exact follows_published hwidth (p.length_peekObsCorrections st.dec) rfl rfl

theorem follows_publishTagged (type : RoundType) (fired : Bool)
    (hwidth : st.correctionFrame.length = n.decoder.numObservables) :
    Follows n st (n.publishTagged type fired st) := by
  unfold publishTagged
  split
  · next p hp =>
    split
    · exact follows_published hwidth (p.length_peekObsCorrections st.dec) rfl rfl
    · exact follows_withheld hwidth rfl
  · split
    · exact follows_capture _ _ hwidth
    · exact follows_withheld hwidth rfl

theorem follows_publishUntagged (shotEnd fired : Bool)
    (hwidth : st.correctionFrame.length = n.decoder.numObservables) :
    Follows n st (n.publishUntagged shotEnd fired st) := by
  unfold publishUntagged
  split
  · next p hp =>
    split
    · exact follows_published hwidth (p.length_peekObsCorrections st.dec) rfl rfl
    · exact follows_withheld hwidth rfl
  · split
    · exact follows_published hwidth (n.decoder.length_getObsCorrections st.dec) rfl rfl
    · exact follows_withheld hwidth rfl
  · split
    · exact follows_published hwidth (n.decoder.length_getObsCorrections st.dec) rfl rfl
    · exact follows_withheld hwidth rfl

theorem follows_call (c : StreamCall) (hwidth : st.correctionFrame.length = n.decoder.numObservables) :
    Follows n st (n.call c st) := by
  cases c with
  | tagged msyn type =>
    show Follows n st (n.enqueue msyn type st)
    unfold enqueue
    split
    · exact follows_withheld hwidth rfl
    · let fed : StreamingDecoderState σ := { st with
        untaggedFill := 0
        dec := (n.decoder.enqueueSyndrome st.dec msyn (some type)).2 }
      obtain ⟨hlength, hpublished, hwithheld⟩ :=
        follows_publishTagged type (n.decoder.enqueueSyndrome st.dec msyn (some type)).1
          (show fed.correctionFrame.length = _ from hwidth)
      exact ⟨hlength, hpublished, hwithheld⟩
  | untagged msyn =>
    show Follows n st (n.enqueueUntagged msyn st)
    unfold enqueueUntagged
    split
    · exact follows_withheld hwidth rfl
    · let fed : StreamingDecoderState σ := { st with
        untaggedFill := if n.endsUntagged msyn st then 0 else st.untaggedFill + msyn.length
        dec := (n.decoder.enqueueSyndrome st.dec msyn none).2 }
      obtain ⟨hlength, hpublished, hwithheld⟩ := follows_publishUntagged (n.endsUntagged msyn st)
        (n.decoder.enqueueSyndrome st.dec msyn none).1 (show fed.correctionFrame.length = _ from hwidth)
      exact ⟨hlength, hpublished, hwithheld⟩
  | flush =>
    show Follows n st (n.flush st)
    unfold flush
    split
    · exact follows_capture true false hwidth
    · exact follows_withheld hwidth rfl

/-- The deltas of any calls take the frame to where they leave it. -/
theorem xorAll_publications (hwidth : st.correctionFrame.length = n.decoder.numObservables)
    (calls : List StreamCall) :
    xorAll st.correctionFrame ((n.publications st calls).map StreamPublication.delta) =
      (n.after st calls).correctionFrame := by
  induction calls generalizing st with
  | nil => rfl
  | cons c calls ih =>
    obtain ⟨hlength, hpublished, hwithheld⟩ := follows_call c hwidth
    show _ = (n.after (n.call c st).2 calls).correctionFrame
    cases hpub : (n.call c st).1 with
    | true =>
      rw [publications_cons_of_published hpub, ← ih hlength, ← hpublished hpub]
      rfl
    | false => rw [publications_cons_of_withheld hpub, ← ih hlength, hwithheld hpub]

end StreamingDecoderNode

open StreamingDecoderNode

variable {σ : Type}

/-- From a reset on, a node that reports exact intervals publishes intervals that begin at round 0 and
follow on one another, up to the end of the stream and again after it, and deltas that add up to its
corrections. -/
theorem publications_tile (n : StreamingDecoderNode σ) (hexact : n.exact = true)
    (p : CorrectionProvider σ n.decoder.numObservables) (hp : n.provider = some p)
    (st : StreamingDecoderState σ) (rounds : Nat) (calls : List StreamCall)
    (hrun : n.StreamRun p (n.resetDecoder st) rounds calls)
    (hreports : n.ReportsPublished (n.resetDecoder st) calls) :
    TileFrom 0 (n.publications (n.resetDecoder st) calls) ∧
      xorAll (zeros n.decoder.numObservables)
          ((n.publications (n.resetDecoder st) calls).map StreamPublication.delta) =
        (n.after (n.resetDecoder st) calls).corrections := by
  have hframe : (n.resetDecoder st).correctionFrame.length = n.decoder.numObservables := length_zeros _
  exact ⟨tileFrom_publications hexact hp hrun hreports (Nat.zero_le _), xorAll_publications hframe calls⟩

/-! ## A decoder of shots of two rounds, of 3 and 9 measurements -/

namespace TwoRounds

/-- Its state is what it has taken of a shot, and whether that is over. `reports` is whether it reports the
decode of a shot. -/
def decoder (reports : Bool) : StreamDecoder (Nat × Bool) where
  numObservables := 1
  numMsynPerDecode := 12
  enqueueSyndrome := fun dec msyn _ =>
    let taken := (if dec.2 then 0 else dec.1) + msyn.length
    (reports && decide (12 ≤ taken), taken, decide (12 ≤ taken))
  getObsCorrections := fun dec => ([if 3 ≤ dec.1 then 1 else 0], dec)
  resetDecoder := fun _ => (0, false)
  length_getObsCorrections := fun _ => rfl

def provider : CorrectionProvider (Nat × Bool) 1 where
  peekObsCorrections := fun dec => ([if 3 ≤ dec.1 then 1 else 0], dec)
  finalizeObsCorrections := fun dec => ([if 3 ≤ dec.1 then 1 else 0], dec)
  finalizedRoundCount := fun dec => if dec.2 then some 2 else none
  committedRoundCount := fun dec => some (if !dec.2 ∧ 3 ≤ dec.1 then 1 else 0)
  length_peekObsCorrections := fun _ => rfl
  length_finalizeObsCorrections := fun _ => rfl

theorem create_isSome (reports : Bool) :
    (create 12 1 (decoder reports) (some provider) 5 false 2).toOption.isSome = true := rfl

def node (reports : Bool) : StreamingDecoderNode (Nat × Bool) :=
  (create 12 1 (decoder reports) (some provider) 5 false 2).toOption.get (create_isSome reports)

def start : StreamingDecoderState (Nat × Bool) where
  dec := (0, false)
  correctionFrame := [0]
  lastOutput := ⟨[0], false⟩
  outputValid := false
  pendingInnerInput := false
  untaggedFill := 0
  completedRounds := 0
  shotCommitted := 0
  coverage := none

def twoShots : List StreamCall :=
  [.untagged [0, 0, 0], .untagged [0, 0, 0, 0, 0, 0, 0, 0, 0], .tagged [0, 0, 0] .bulk,
    .tagged [0, 0, 0, 0, 0, 0, 0, 0, 0] .final]

def nextShot : List StreamCall :=
  [.untagged [0, 0, 0], .untagged [0, 0, 0, 0, 0, 0, 0, 0, 0], .untagged [0, 0, 0]]

end TwoRounds

open TwoRounds

/-- Two shots that are reported. -/
theorem publications_tile_twoShots :
    TileFrom 0 ((node true).publications ((node true).resetDecoder start) twoShots) ∧
      xorAll (zeros (node true).decoder.numObservables)
          (((node true).publications ((node true).resetDecoder start) twoShots).map
            StreamPublication.delta) =
        ((node true).after ((node true).resetDecoder start) twoShots).corrections := by
  apply publications_tile (node true) rfl provider rfl start 2 twoShots
  · refine .goesOn (by show 0 + 3 ≤ 12; decide) rfl nofun (by decide) ?_
    refine @StreamRun.endsShot _ _ _ _ _ 2 _ _ (by show 3 + 9 ≤ 12; decide) rfl (fun r hr => ?_) ?_
    · exact (Option.some.inj hr).symm
    · exact .goesOn trivial rfl nofun (by decide) (@StreamRun.endsStream _ _ _ _ _ 2 _ _ rfl rfl (.nil _ 2))
  · refine ⟨fun msyn hmsyn _ hwidth => ?_, fun msyn hmsyn _ _ _ => ?_, nofun, nofun, trivial⟩
    · cases hmsyn
      cases hwidth
    · cases hmsyn
      rfl

/-- A shot that is not reported, of which a round has been published: the next one begins where it did. -/
theorem not_publications_tile :
    let reset := (node false).resetDecoder start
    (node false).exact = true ∧ (node false).StreamRun provider reset 2 nextShot ∧
      ((node false).publications reset nextShot).map StreamPublication.coverage =
        [some ⟨0, 1⟩, some ⟨0, 1⟩] ∧
      ¬ TileFrom 0 ((node false).publications reset nextShot) := by
  refine ⟨rfl, ?_, rfl, ?_⟩
  · refine .goesOn (by show 0 + 3 ≤ 12; decide) rfl nofun (by decide) ?_
    refine @StreamRun.endsShot _ _ _ _ _ 2 _ _ (by show 3 + 9 ≤ 12; decide) rfl nofun ?_
    exact .goesOn (by show 0 + 3 ≤ 12; decide) rfl nofun (by decide) (.nil _ 2)
  · rintro ⟨_, hfirst, -, _, hsecond, hbegin, -⟩
    cases hfirst
    cases hsecond
    cases hbegin

end CudaqQec
