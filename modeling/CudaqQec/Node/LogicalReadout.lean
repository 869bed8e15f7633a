import CudaqQec.Template.Expanded

/-!
# Reading the raw logical value

The `logical_readout` node. The rounds of the prefix lie at fixed places and are read as they arrive; the
rounds of the suffix are read from the shot's last measurements, which are kept in a ring until FINAL.

* `buildReadout`: what the constructor reads off a template.
* `ReadoutState.enqueue`, `ReadoutState.flush`: the node's stream.
* `Unread.enqueue`: what has been read of an observable is not read again.
-/

namespace CudaqQec

open Checked

/-! ## The reading rounds of a template -/

/-- A round that reads observables: where it begins, and which observables each measurement flips. -/
structure ReadingRound where
  round : Nat
  begin : Nat
  observables : List (List Nat)
  deriving DecidableEq

def ReadingRound.width (r : ReadingRound) : Nat := r.observables.length

def ReadingRound.Reads (r : ReadingRound) (i : Nat) : Prop := ∃ flipped ∈ r.observables, i ∈ flipped

/-- Each entry of `m2o_sparse` with the observable whose row it stands in. -/
@[grind =] def readings (observable : Nat) : List Int → List (Nat × Int)
  | [] => []
  | value :: rest =>
    if value = -1 then readings (observable + 1) rest
    else (observable, value) :: readings observable rest

/-- What `add_reading_round` marks in `reads`. -/
def readsObservable (m2o : List Int) (i : Nat) : Bool := (readings 0 m2o).any fun r => r.1 = i

def addReadingRound (m2o : List Int) (round begin width : Nat) : Except Error (Option ReadingRound) :=
  match (readings 0 m2o).find? fun r => r.2 < 0 ∨ (width : Int) ≤ r.2 with
  | some r =>
    .error (.invalidArgument ("logical_readout: round " ++ toString round ++
      "'s m2o_sparse reads measurement " ++ toString r.2 ++ " of the " ++ toString width ++
      " its round has"))
  | none =>
    if readings 0 m2o = [] then .ok none
    else .ok (some {
      round := round
      begin := begin
      observables := (List.range width).map fun p : Nat =>
        ((readings 0 m2o).filter fun r => r.2 = (p : Int)).map (·.1) })

namespace TemplateData

variable (t : TemplateData)

def readoutOf (r R : Nat) : List Int := (t.phaseSpec (t.phase r R)).m2oSparse

def readoutProbe : Nat := if t.repeats then t.minRounds + 2 else t.minRounds

def readoutTail : List Nat :=
  let suffix := if t.repeats then t.suffixRounds else 0
  List.range' (t.readoutProbe - suffix) suffix

def completion (i : Nat) : Option Nat :=
  let prefixed := (List.range t.prefixRounds).foldl (fun last r =>
    if readsObservable (t.readoutOf r t.readoutProbe) i then some r else last) none
  t.readoutTail.foldl (fun last r =>
    if readsObservable (t.readoutOf r t.readoutProbe) i then none else last) prefixed

end TemplateData

/-- What a `logical_readout` node holds of its template. -/
structure LogicalReadout where
  numObservables : Nat
  head : Nat
  tail : Nat
  headRounds : List ReadingRound
  tailRounds : List ReadingRound
  completion : List (Option Nat)
  deriving DecidableEq

/-- The constructor of `logical_readout_node`. -/
def buildReadout (t : TemplateData) : Except Error LogicalReadout := do
  throwIf (!t.spec.hasReadout)
    (.invalidArgument "logical_readout: no phase of the template carries m2o_sparse")
  let offset := fun r => t.measurementOffset r t.readoutProbe
  let width := fun r => sizeT (offset (r + 1) - offset r)
  let firstTail := t.readoutProbe - t.readoutTail.length
  let headRounds ← (List.range t.prefixRounds).mapM fun r =>
    addReadingRound (t.readoutOf r t.readoutProbe) r (sizeT (offset r)) (width r)
  let tailRounds ← t.readoutTail.mapM fun r =>
    addReadingRound (t.readoutOf r t.readoutProbe) 0 (sizeT (offset r - offset firstTail)) (width r)
  return {
    numObservables := t.numObservables
    head := sizeT (offset t.prefixRounds)
    tail := sizeT (offset t.readoutProbe - offset firstTail)
    headRounds := headRounds.filterMap id
    tailRounds := tailRounds.filterMap id
    completion := (List.range t.numObservables).map t.completion }

/-! ## The stream -/

def addReading (round : ReadingRound) (localIndex : Nat) (value : List UInt8) : List UInt8 :=
  (round.observables.getD localIndex []).foldl (fun value o => value.modify o (· ^^^ 1)) value

/-- What the node knows of a shot. -/
structure ReadoutState where
  kept : List UInt8
  next : Nat
  seen : Nat
  nextRound : Nat
  readEnd : Nat
  read : List UInt8
  ended : Bool
  published : Bool
  current : Bool
  corrections : List UInt8
  deriving DecidableEq

namespace ReadoutState

variable (l : LogicalReadout)

/-- What the constructor leaves. -/
def start : ReadoutState where
  kept := List.replicate l.tail 0
  next := 0
  seen := 0
  nextRound := 0
  readEnd := 0
  read := List.replicate l.numObservables 0
  ended := false
  published := false
  current := false
  corrections := List.replicate l.numObservables 0

def publish (s : ReadoutState) : ReadoutState := { s with corrections := s.read, current := true }

def readChunk (msyn : List UInt8) (s : ReadoutState) (round : ReadingRound) : ReadoutState :=
  let first := max round.begin s.seen
  let last := min (round.begin + round.width) (s.seen + msyn.length)
  let read := (List.range' first (last - first)).foldl (fun read p =>
    if msyn.getD (p - s.seen) 0 &&& 1 ≠ 0 then addReading round (p - round.begin) read else read) s.read
  { s with read := read }

/-- The loop over the reading rounds; says whether one was completed. -/
@[grind =] def readRounds (msyn : List UInt8) (s : ReadoutState) (read : Bool) :
    List ReadingRound → ReadoutState × Bool
  | [] => (s, read)
  | round :: rest =>
    let starts := s.seen + msyn.length < round.begin + round.width
    -- a round the chunk only starts is not part of what is published
    let s := if read ∧ starts then s.publish else s
    let s := s.readChunk msyn round
    if starts then (s, read)
    else readRounds msyn { s with
      readEnd := round.round + 1
      nextRound := s.nextRound + 1 } true rest

/-- Put one measurement into the ring. -/
def keep (s : ReadoutState) (b : UInt8) : ReadoutState :=
  { s with
    kept := s.kept.set s.next b
    next := if s.next + 1 = l.tail then 0 else s.next + 1 }

/-! ## The calls -/

/-- `enqueue`; says whether the chunk completed a reading round of the prefix. -/
def enqueue (s : ReadoutState) (msyn : List UInt8) (type : RoundType) :
    Except Error (ReadoutState × Bool) := do
  throwIf (s.ended)
    (.logicError ("logical_readout: a chunk after FINAL; clear the corrections or reset to start the " ++
      "next shot"))
  let r := readRounds msyn { s with current := false } false (l.headRounds.drop s.nextRound)
  let s := if l.tail = 0 then r.1 else (msyn.drop (msyn.length - l.tail)).foldl (keep l) r.1
  let s := { s with seen := s.seen + msyn.length }
  let s := if r.2 ∧ !s.current then s.publish else s
  if type = .final then do
    throwIf (s.seen < l.head + l.tail)
      (.invalidArgument ("logical_readout: the shot holds " ++ toString s.seen ++
        " measurements, fewer than the " ++ toString (l.head + l.tail) ++
        " of its prefix and suffix rounds"))
    return ({ s with ended := true }, r.2)
  else return (s, r.2)

def readTail (s : ReadoutState) : List UInt8 :=
  l.tailRounds.foldl (fun value round => (List.range round.width).foldl (fun value p =>
    let at_ := s.next + round.begin + p
    let at_ := if l.tail ≤ at_ then at_ - l.tail else at_
    if s.kept.getD at_ 0 &&& 1 ≠ 0 then addReading round p value else value) value) s.read

/-- `flush`: after FINAL, publish once with the suffix. -/
def flush (s : ReadoutState) : ReadoutState × Bool :=
  if !s.ended ∨ s.published then ({ s with current := false }, false)
  else ({ s with
    corrections := s.readTail l
    readEnd := wholeShot
    current := true
    published := true }, true)

/-- The end of `streaming_coverage`, which begins at round 0. -/
def coverage (s : ReadoutState) : Option Nat := if s.readEnd = 0 then none else some s.readEnd

/-- `reset_streaming_state`. The ring is not cleared. -/
def reset (s : ReadoutState) : ReadoutState := { start l with kept := s.kept }

/-- `clear_corrections`. -/
def clear (s : ReadoutState) : ReadoutState := if s.ended then s.reset l else s

/-! ## What has been read stays -/

/-- No round that is still to come reads the observable. -/
def Settled (s : ReadoutState) (i : Nat) : Prop :=
  ∀ h ∈ l.headRounds.drop s.nextRound, ¬ h.Reads i

/-- How far the node has read, and that its value is what it has read. -/
structure Reading (s : ReadoutState) : Prop where
  front : s.published = false → ∀ h ∈ l.headRounds.drop s.nextRound, s.readEnd ≤ h.round
  value : ∀ i, Settled l s i → (∀ h ∈ l.tailRounds, ¬ h.Reads i) → s.corrections[i]? = s.read[i]?

variable {l} {s s' : ReadoutState} {i : Nat} {round : ReadingRound}

/-! ## Readings into a row -/

theorem getElem?_addReading (h : ¬ round.Reads i) (p : Nat) (value : List UInt8) :
    (addReading round p value)[i]? = value[i]? := by
  unfold addReading
  have hnot : i ∉ round.observables.getD p [] := by
    intro hi
    rw [List.getD_eq_getElem?_getD] at hi
    cases hp : round.observables[p]? with
    | none =>
      rw [hp] at hi
      exact absurd hi List.not_mem_nil
    | some flipped =>
      rw [hp] at hi
      exact h ⟨flipped, List.mem_of_getElem? hp, hi⟩
  generalize round.observables.getD p [] = flipped at hnot
  induction flipped generalizing value with
  | nil => rfl
  | cons o flipped ih =>
    rw [List.foldl_cons, ih _ fun hi => hnot (List.mem_cons_of_mem _ hi), List.getElem?_modify]
    have hne : o ≠ i := fun ho => hnot (ho ▸ List.mem_cons_self ..)
    simp [hne]

/-- Readings that do not touch an observable, one after the other. -/
theorem getElem?_foldl_addReading {ι : Type} (h : ¬ round.Reads i) (flips : ι → Bool) (at_ : ι → Nat)
    (ps : List ι) (value : List UInt8) :
    (ps.foldl (fun value p => if flips p then addReading round (at_ p) value else value) value)[i]? =
      value[i]? := by
  induction ps generalizing value with
  | nil => rfl
  | cons p ps ih =>
    rw [List.foldl_cons, ih]
    split
    · exact getElem?_addReading h _ value
    · rfl

theorem readChunk_read (msyn : List UInt8) (s : ReadoutState) (h : ¬ round.Reads i) :
    (s.readChunk msyn round).read[i]? = s.read[i]? := by
  have := getElem?_foldl_addReading h (fun p => decide (msyn.getD (p - s.seen) 0 &&& 1 ≠ 0))
    (fun p => p - round.begin)
    (List.range' (max round.begin s.seen) (min (round.begin + round.width) (s.seen + msyn.length) -
      max round.begin s.seen)) s.read
  simp only [decide_eq_true_eq] at this
  exact this

theorem readTail_at (s : ReadoutState) (h : ∀ h ∈ l.tailRounds, ¬ h.Reads i) :
    (s.readTail l)[i]? = s.read[i]? := by
  unfold readTail
  generalize l.tailRounds = rounds at h
  have hrun : ∀ value : List UInt8, (rounds.foldl (fun value round =>
      (List.range round.width).foldl (fun value p =>
        let at_ := s.next + round.begin + p
        let at_ := if l.tail ≤ at_ then at_ - l.tail else at_
        if s.kept.getD at_ 0 &&& 1 ≠ 0 then addReading round p value else value) value) value)[i]? =
      value[i]? := by
    induction rounds with
    | nil => exact fun _ => rfl
    | cons round rounds ih =>
      intro value
      rw [List.foldl_cons, ih fun h' hh => h h' (List.mem_cons_of_mem _ hh)]
      have := getElem?_foldl_addReading (h round (List.mem_cons_self ..)) (fun p => decide
        (s.kept.getD (if l.tail ≤ s.next + round.begin + p then s.next + round.begin + p - l.tail
          else s.next + round.begin + p) 0 &&& 1 ≠ 0)) id (List.range round.width) value
      simp only [decide_eq_true_eq, id_eq] at this
      exact this
  exact hrun s.read

/-! ## The rounds in order -/

/-- The rounds are in order. -/
def Ordered (l : LogicalReadout) : Prop :=
  l.headRounds.Pairwise fun g h => g.round < h.round

/-- In the loop: the value is what has been read, unless a round was completed since. -/
structure Midway (l : LogicalReadout) (s : ReadoutState) (read : Bool) : Prop where
  front : s.published = false → ∀ h ∈ l.headRounds.drop s.nextRound, s.readEnd ≤ h.round
  value : read = false ∨ s.current = true → ∀ i, Settled l s i →
    (∀ h ∈ l.tailRounds, ¬ h.Reads i) → s.corrections[i]? = s.read[i]?

/-- The loop reads nothing of what is settled, and keeps what holds of the value. -/
theorem readRounds_spec (ho : Ordered l) (msyn : List UInt8) (rounds : List ReadingRound)
    {read : Bool} (hrounds : l.headRounds.drop s.nextRound = rounds) (hcurrent : s.current = false)
    (h : Midway l s read) :
    let r := readRounds msyn s read rounds
    Midway l r.1 r.2 ∧ (∀ i, Settled l s i → Settled l r.1 i ∧ r.1.read[i]? = s.read[i]?) ∧
      r.1.published = s.published ∧ r.1.ended = s.ended := by
  induction rounds generalizing s read with
  | nil => exact ⟨h, fun i hi => ⟨hi, rfl⟩, rfl, rfl⟩
  | cons round rounds ih =>
    dsimp only
    have hmem : round ∈ l.headRounds.drop s.nextRound := hrounds ▸ List.mem_cons_self ..
    have hrest : l.headRounds.drop (s.nextRound + 1) = rounds := by
      rw [← List.drop_drop, hrounds]
      rfl
    have hsame : ∀ (s : ReadoutState) (i : Nat), ¬ round.Reads i →
        (s.readChunk msyn round).read[i]? = s.read[i]? := fun s i hi => readChunk_read msyn s hi
    by_cases hstarts : s.seen + msyn.length < round.begin + round.width
    · cases hread : read with
      | false =>
        have hr : readRounds msyn s false (round :: rounds) = (s.readChunk msyn round, false) := by
          simp only [readRounds, hstarts, Bool.false_eq_true, false_and, if_true, if_false]
        rw [hr]
        refine ⟨⟨h.front, fun _ i hi htail => ?_⟩, fun i hi => ⟨hi, hsame s i (hi round hmem)⟩, rfl, rfl⟩
        rw [hsame s i (hi round hmem)]
        exact h.value (.inl hread) i hi htail
      | true =>
        -- what was completed is published without what the round adds
        have hr : readRounds msyn s true (round :: rounds) =
            (s.publish.readChunk msyn round, true) := by
          simp only [readRounds, hstarts, and_self, if_true]
        rw [hr]
        refine ⟨⟨h.front, fun _ i hi htail => ?_⟩,
          fun i hi => ⟨hi, hsame s.publish i (hi round hmem)⟩, rfl, rfl⟩
        rw [hsame s.publish i (hi round hmem)]
        rfl
    · let s₁ : ReadoutState := { s.readChunk msyn round with
        readEnd := round.round + 1
        nextRound := s.nextRound + 1 }
      have hr : readRounds msyn s read (round :: rounds) = readRounds msyn s₁ true rounds := by
        simp only [readRounds, hstarts, and_false, if_false]
        rfl
      have hmid : Midway l s₁ true := by
        constructor
        · intro _ h' hh'
          have hdrop := ho.sublist (List.drop_sublist s.nextRound l.headRounds)
          rw [hrounds] at hdrop
          change h' ∈ l.headRounds.drop (s.nextRound + 1) at hh'
          rw [hrest] at hh'
          exact (List.pairwise_cons.mp hdrop).1 h' hh'
        · rintro (hno | hno)
          · cases hno
          · change s.current = true at hno
            rw [hcurrent] at hno
            cases hno
      obtain ⟨hmid', hkeep, hpublished, hended⟩ := ih (s := s₁) hrest hcurrent hmid
      rw [hr]
      refine ⟨hmid', fun i hi => ?_, hpublished, hended⟩
      have hi₁ : Settled l s₁ i := by
        intro h' hh'
        change h' ∈ l.headRounds.drop (s.nextRound + 1) at hh'
        rw [hrest] at hh'
        exact hi h' (hrounds ▸ List.mem_cons_of_mem _ hh')
      obtain ⟨hsettled, hvalue⟩ := hkeep i hi₁
      exact ⟨hsettled, hvalue.trans (hsame s i (hi round hmem))⟩

theorem foldl_keep (bs : List UInt8) (s : ReadoutState) :
    ∃ kept next, bs.foldl (keep l) s = { s with kept := kept, next := next } := by
  induction bs generalizing s with
  | nil => exact ⟨s.kept, s.next, rfl⟩
  | cons b bs ih =>
    rw [List.foldl_cons]
    obtain ⟨kept, next, heq⟩ := ih (keep l s b)
    exact ⟨kept, next, heq⟩

/-! ## After a call -/

/-- What the loop found, once it is published. -/
theorem Midway.reading {read : Bool} (h : Midway l s read) :
    Reading l (if read ∧ !s.current then s.publish else s) := by
  split
  · exact ⟨h.front, fun _ _ _ => rfl⟩
  · rename_i hnot
    refine ⟨h.front, h.value ?_⟩
    cases hread : read with
    | false => exact .inl rfl
    | true => simpa [hread] using hnot

/-- What is settled is not read again, and the value stays what has been read. -/
theorem enqueue_spec (ho : Ordered l) {msyn : List UInt8} {type : RoundType} {fired : Bool}
    (h : Reading l s) (he : s.enqueue l msyn type = .ok (s', fired)) :
    Reading l s' ∧ (∀ i, Settled l s i → Settled l s' i ∧ s'.read[i]? = s.read[i]?) ∧
      s'.published = s.published := by
  have hmid : Midway l { s with current := false } false := ⟨h.front, fun _ => h.value⟩
  obtain ⟨hmid', hkeep, hpublished, -⟩ := readRounds_spec ho msyn _ rfl rfl hmid
  simp only [enqueue, bind_eq_ok] at he
  obtain ⟨-, -, he⟩ := he
  generalize readRounds msyn { s with current := false } false (l.headRounds.drop s.nextRound) = r
    at hmid' hkeep hpublished he
  -- the ring changes nothing else
  obtain ⟨kept, next, hring⟩ : ∃ kept next, (if l.tail = 0 then r.1
      else (msyn.drop (msyn.length - l.tail)).foldl (keep l) r.1) =
        { r.1 with kept := kept, next := next } := by
    split
    · exact ⟨r.1.kept, r.1.next, rfl⟩
    · exact foldl_keep _ r.1
  rw [hring] at he
  let s₃ : ReadoutState := { r.1 with
    kept := kept
    next := next
    seen := r.1.seen + msyn.length }
  let s₄ := if r.2 ∧ !s₃.current then s₃.publish else s₃
  have hmid₃ : Midway l s₃ r.2 := ⟨hmid'.front, hmid'.value⟩
  have hreading : Reading l s₄ := hmid₃.reading
  have hfields : s₄.nextRound = r.1.nextRound ∧ s₄.read = r.1.read ∧
      s₄.published = r.1.published := by
    by_cases hp : r.2 = true ∧ (!s₃.current) = true
    · rw [show s₄ = s₃.publish from if_pos hp]
      exact ⟨rfl, rfl, rfl⟩
    · rw [show s₄ = s₃ from if_neg hp]
      exact ⟨rfl, rfl, rfl⟩
  have hend : s' = s₄ ∨ s' = { s₄ with ended := true } := by
    split at he
    · simp only [bind_eq_ok] at he
      obtain ⟨-, -, he⟩ := he
      exact .inr (congrArg Prod.fst (Except.ok.inj he)).symm
    · exact .inl (congrArg Prod.fst (Except.ok.inj he)).symm
  have hs' : Reading l s' ∧ s'.nextRound = s₄.nextRound ∧ s'.read = s₄.read ∧
      s'.published = s₄.published := by
    rcases hend with rfl | rfl
    · exact ⟨hreading, rfl, rfl, rfl⟩
    · exact ⟨⟨hreading.front, hreading.value⟩, rfl, rfl, rfl⟩
  obtain ⟨hreading', hnext, hread, hpub⟩ := hs'
  refine ⟨hreading', fun i hi => ?_, hpub.trans (hfields.2.2.trans hpublished)⟩
  obtain ⟨hsettled, hvalue⟩ := hkeep i hi
  constructor
  · intro h' hh'
    rw [hnext, hfields.1] at hh'
    exact hsettled h' hh'
  · rw [hread, hfields.2.1]
    exact hvalue

theorem Reading.flush (h : Reading l s) : Reading l (s.flush l).1 := by
  unfold ReadoutState.flush
  split
  · exact ⟨h.front, h.value⟩
  · refine ⟨fun hno => ?_, fun i _ htail => readTail_at s htail⟩
    cases hno

theorem reading_reset (l : LogicalReadout) (s : ReadoutState) : Reading l (s.reset l) :=
  ⟨fun _ _ _ => Nat.zero_le _, fun _ _ _ => rfl⟩

theorem Reading.clear (h : Reading l s) : Reading l (s.clear l) := by
  unfold ReadoutState.clear
  split
  · exact reading_reset l s
  · exact h

end ReadoutState

end CudaqQec
