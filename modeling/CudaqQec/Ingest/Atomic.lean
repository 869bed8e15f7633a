import CudaqQec.Ingest.Cutting

/-!
# Errors of `enqueue`

A record that is deferred or thrown takes nothing. Every check of `enqueue` comes before its first
write but one: `cut` rejects a record that runs past the readout round after staging part of it. That
check never fires, since `enqueue` counts the measurements first; `Counted` is the invariant that makes
the count exact.

* `IngestCall`, `IngestAnswer`: what the callers of an `ingest_core` do, and what they see.
* `enqueue_atomic`: what a record that is not taken changes, in any state that calls lead to.
-/

namespace CudaqQec

open IngestSetup

/-! ## Calls -/

/-- `window_rows`: a window's own rows, copied from the ring. -/
structure WindowRows where
  k : Int
  rounds : RoundRange
  variant : VariantKey
  firstRow : Nat
  detectors : List UInt8
  deriving DecidableEq

/-- A call to an `ingest_core`. -/
inductive IngestCall where
  | enqueue (rec : IngestRecord)
  | poll
  | release (layer slot : Nat)
  | detectors (r : Int)
  | viewDetectors (view : WindowView) (r : Int)
  | copyWindow (view : WindowView)
  | shotRounds
  | done
  | reset

/-- What a call returns or throws. -/
inductive IngestAnswer where
  | status (result : Except Error IngestStatus)
  | publication (result : Option IngestPublication)
  | released (result : Except Error Unit)
  | rows (result : Except Error (List UInt8))
  | window (result : Except Error WindowRows)
  | rounds (result : Option Nat)
  | isDone (result : Bool)
  | restarted (result : Except Error Unit)

namespace IngestCore

variable (c : IngestCore)

/-- `copy_window`: a view's window, round by round. -/
def copyWindow (s : IngestState) (view : WindowView) : Except Error WindowRows := do
  let rounds ← (List.range (view.rounds.stop - view.rounds.begin).toNat).mapM fun i =>
    c.viewDetectors s view (view.rounds.begin + i)
  return ⟨view.k, view.rounds, view.variant, view.firstRow, rounds.flatten⟩

def orKept (s : IngestState) (result : Except Error IngestState) : IngestState × Except Error Unit :=
  match result with
  | .ok s' => (s', .ok ())
  | .error e => (s, .error e)

/-- One call. -/
def call (s : IngestState) : IngestCall → IngestState × IngestAnswer
  | .enqueue rec => ((c.enqueue s rec).1, .status (c.enqueue s rec).2)
  | .poll => ((c.poll s).1, .publication (c.poll s).2)
  | .release l slot =>
    ((orKept s (c.release s l slot)).1, .released (orKept s (c.release s l slot)).2)
  | .detectors r => (s, .rows (c.detectors s r))
  | .viewDetectors view r => (s, .rows (c.viewDetectors s view r))
  | .copyWindow view => (s, .window (c.copyWindow s view))
  | .shotRounds => (s, .rounds s.shotRounds)
  | .done => (s, .isDone (done s))
  | .reset => ((orKept s (c.reset s)).1, .restarted (orKept s (c.reset s)).2)

def after (s : IngestState) (calls : List IngestCall) : IngestState :=
  calls.foldl (fun s call => (c.call s call).1) s

@[grind =] def answers (s : IngestState) : List IngestCall → List IngestAnswer
  | [] => []
  | call :: calls => (c.call s call).2 :: answers (c.call s call).1 calls

/-- A state that takes no record before `reset`: it failed, or a FINAL record is taken. -/
def Closed (s : IngestState) : Prop := s.failed = true ∨ s.shotRounds.isSome = true

/-- Until FINAL, the rounds cut are counted, and in a shot that does not repeat they end before the
readout round, which may be full. -/
structure Counted (s : IngestState) : Prop where
  cutBytes : s.shotRounds = none → s.cutBytes = c.forwardOffset s.roundsCut
  round : s.shotRounds = none → c.repeats = false → s.roundsCut < c.prefixRounds

variable {c} {s : IngestState}

/-! ## Forming and cutting -/

theorem sameInput_formLoop (least n : Nat) : SameInput s (c.formLoop least n s) := by
  induction n generalizing s with
  | zero => exact SameInput.refl s
  | succ n ih =>
    unfold formLoop
    split
    · exact SameInput.trans sameInput_formNext ih
    · exact SameInput.refl s

/-- Forming rounds reads the shot and does not move it. -/
theorem sameInput_formKnownRounds : SameInput s (c.formKnownRounds s) :=
  sameInput_formLoop _ _

theorem Counted.of_sameInput {s' : IngestState} (h : c.Counted s) (hs : SameInput s s') :
    c.Counted s' := by
  refine ⟨fun hnone => ?_, fun hnone hrep => ?_⟩
  · rw [hs.cutBytes, hs.roundsCut]
    exact h.cutBytes (hs.shotRounds ▸ hnone)
  · rw [hs.roundsCut]
    exact h.round (hs.shotRounds ▸ hnone) hrep

theorem Counted.completeRound (h : c.Counted s) (hat : c.atReadout s = false) :
    c.Counted (c.completeRound s (c.cutWidth s)) := by
  rw [completeRound_eq]
  refine Counted.of_sameInput ⟨fun hnone => ?_, fun hnone hrep => ?_⟩ sameInput_formKnownRounds
  · have hwidth : c.cutWidth s = c.forwardWidth s.roundsCut := if_neg (by simp [hat])
    change s.cutBytes + c.cutWidth s = c.forwardOffset (s.roundsCut + 1)
    rw [forwardOffset_succ, hwidth, h.cutBytes hnone]
  · have hlt := h.round hnone hrep
    change s.roundsCut + 1 < c.prefixRounds
    apply Nat.lt_of_le_of_ne hlt
    intro heq
    have hnone : s.shotRounds = none := hnone
    have hne : s.roundsCut + 1 ≠ c.prefixRounds := by simpa [atReadout, hrep, hnone] using hat
    exact hne heq

theorem shotRounds_completeRound (width : Nat) :
    (c.completeRound s width).shotRounds = s.shotRounds :=
  (sameInput_formKnownRounds (c := c)).shotRounds

/-- Before FINAL `cut` takes a record that has been counted: the readout round is full only once
nothing is left. -/
theorem Counted.cutLoop (fuel : Nat) {data : List UInt8} (h : c.Counted s)
    (hfits : s.shotRounds = none → c.repeats = false →
      s.received + data.length ≤ c.fixedMeasurements) :
    (c.cutLoop fuel s data).2 = .ok .accepted ∧ c.Counted (c.cutLoop fuel s data).1 := by
  induction fuel generalizing s data with
  | zero => exact ⟨rfl, h.of_sameInput sameInput_formKnownRounds⟩
  | succ fuel ih =>
    unfold IngestCore.cutLoop
    split
    · exact ⟨rfl, h.of_sameInput sameInput_formKnownRounds⟩
    set take := min data.length (c.cutWidth s - s.partialRound)
    have htake : (data.take take).length = take := by
      rw [List.length_take]
      exact Nat.min_eq_left (Nat.min_le_left _ _)
    have hstage : c.Counted (c.stage s (data.take take)) := ⟨h.cutBytes, h.round⟩
    have hreceived : (c.stage s (data.take take)).received + (data.drop take).length =
        s.received + data.length := by
      change s.cutBytes + (s.partialRound + (data.take take).length) + _ = s.cutBytes + _ + _
      rw [htake, List.length_drop]
      omega
    simp only
    split
    · apply ih hstage
      rw [hreceived]
      exact hfits
    next hfull =>
    split
    · next hat =>
      obtain ⟨hrep, hround, hnone⟩ : c.repeats = false ∧ s.roundsCut + 1 = c.prefixRounds ∧
          s.shotRounds = none := by simpa [atReadout] using hat
      have hwidth : c.cutWidth s = c.lastWidth := if_pos hat
      have hfixed := (fixedMeasurements_eq hrep).1
      have hle := hfits hnone hrep
      have hcut := h.cutBytes hnone
      rw [← hround, Nat.add_sub_cancel, ← hcut] at hfixed
      -- The round before this record's last measurement is the shot's last: no measurement is left.
      have hdone : data.drop take = [] := by
        rw [List.drop_eq_nil_iff]
        change ¬ s.partialRound + (data.take take).length < c.cutWidth s at hfull
        unfold IngestState.received at hle
        omega
      rw [if_pos hdone]
      exact ⟨rfl, hstage⟩
    · next hat =>
      obtain ⟨hw, hat'⟩ : c.cutWidth (c.stage s (data.take take)) = c.cutWidth s ∧
          c.atReadout (c.stage s (data.take take)) = c.atReadout s := cutWidth_congr rfl rfl
      have hnext := hstage.completeRound (hat'.trans (Bool.eq_false_of_not_eq_true hat))
      rw [hw] at hnext
      apply ih hnext
      rw [shotRounds_completeRound]
      intro hnone hrep
      have hrec : (c.completeRound (c.stage s (data.take take)) (c.cutWidth s)).received =
          s.cutBytes + c.cutWidth s := by
        rw [completeRound_eq, IngestState.received, sameInput_formKnownRounds.cutBytes,
          sameInput_formKnownRounds.partialRound]
        rfl
      have hle := hfits hnone hrep
      rw [← hreceived] at hle
      refine le_trans (Nat.add_le_add_right ?_ _) hle
      rw [hrec]
      exact Nat.add_le_add_left (not_lt.mp hfull) _

theorem shotRounds_cutLoop (fuel : Nat) (data : List UInt8) :
    (c.cutLoop fuel s data).1.shotRounds = s.shotRounds := by
  induction fuel generalizing s data with
  | zero => exact (sameInput_formKnownRounds (c := c)).shotRounds
  | succ fuel ih =>
    unfold IngestCore.cutLoop
    split
    · exact (sameInput_formKnownRounds (c := c)).shotRounds
    simp only
    split
    · exact ih _
    split
    · split <;> rfl
    · exact (ih _).trans (shotRounds_completeRound _)

/-! ## Records -/

theorem shotRounds_finish (r : Nat) (data : List UInt8) :
    (c.finish s r data).shotRounds = s.shotRounds := by
  unfold finish
  split
  · refine (shotRounds_completeRound _).trans ?_
    change (if s.roundsCut < r then _ else s).shotRounds = s.shotRounds
    split
    · exact shotRounds_cutLoop _ _
    · rfl
  split
  · exact shotRounds_completeRound _
  · rfl

/-- What a record that is not taken changes, and what closes a state. -/
structure Taken (c : IngestCore) (s : IngestState)
    (r : IngestState × Except Error IngestStatus) : Prop where
  counted : c.Counted r.1
  deferred : r.2 = .ok .deferred → r.1 = s
  thrown : ∀ e, r.2 = .error e → r.1 = { s with failed := r.1.failed } ∧ Closed r.1

theorem Counted.fail (h : c.Counted s) (what : String) : c.Taken s (fail s what) :=
  ⟨⟨h.cutBytes, h.round⟩, nofun, fun _ _ => ⟨rfl, .inl rfl⟩⟩

theorem Counted.enqueueFinal (h : c.Counted s) (data : List UInt8) :
    c.Taken s (c.enqueueFinal s data) := by
  unfold IngestCore.enqueueFinal
  cases c.finalRound s data.length with
  | error e => exact ⟨⟨h.cutBytes, h.round⟩, nofun, fun _ _ => ⟨rfl, .inl rfl⟩⟩
  | ok r =>
    have hshot := shotRounds_finish (c := c) (s := { s with shotRounds := some (r + 1) }) r data
    simp only
    split
    · refine ⟨⟨fun hnone => ?_, fun hnone => ?_⟩, nofun, nofun⟩
      · exact absurd (hshot.symm.trans hnone) (Option.some_ne_none _)
      · exact absurd (hshot.symm.trans hnone) (Option.some_ne_none _)
    · exact ⟨h, fun _ => rfl, nofun⟩

theorem Counted.enqueueOpen (h : c.Counted s) (data : List UInt8) :
    c.Taken s (c.enqueueOpen s data) := by
  unfold IngestCore.enqueueOpen
  split
  · exact h.fail _
  next hcount =>
  split
  · have hcut : (c.cut s data).2 = .ok .accepted ∧ c.Counted (c.cut s data).1 := by
      apply h.cutLoop
      intro _ hrep
      have hle : ¬ c.fixedMeasurements < s.cutBytes + s.partialRound + data.length :=
        fun hlt => hcount ⟨hrep, hlt⟩
      exact not_lt.mp hle
    refine ⟨hcut.2, fun hdefer => ?_, fun e herror => ?_⟩
    · exact absurd (hcut.1.symm.trans hdefer) (by simp)
    · exact absurd (hcut.1.symm.trans herror) (by simp)
  · exact ⟨h, fun _ => rfl, nofun⟩

theorem Counted.enqueue (h : c.Counted s) (rec : IngestRecord) : c.Taken s (c.enqueue s rec) := by
  unfold IngestCore.enqueue
  split
  · next hfailed => exact ⟨h, nofun, fun _ _ => ⟨rfl, .inl hfailed⟩⟩
  split
  · next hshot => exact ⟨h, nofun, fun _ _ => ⟨rfl, .inr hshot⟩⟩
  split
  · exact h.fail _
  split
  · exact h.fail _
  split
  · exact h.enqueueFinal _
  · exact h.enqueueOpen _

/-! ## Runs -/

theorem counted_newShot : c.Counted (c.newShot s) := by
  refine ⟨fun _ => rfl, fun _ hrep => ?_⟩
  have htwo := (fixedMeasurements_eq hrep).2
  change 0 < c.prefixRounds
  omega

/-- What handing windows over leaves alone. -/
structure SameShot (s s' : IngestState) : Prop where
  roundsCut : s'.roundsCut = s.roundsCut
  cutBytes : s'.cutBytes = s.cutBytes
  shotRounds : s'.shotRounds = s.shotRounds
  failed : s'.failed = s.failed

theorem SameShot.refl (s : IngestState) : SameShot s s := by constructor <;> rfl

theorem Counted.of_sameShot {s' : IngestState} (h : c.Counted s) (hs : SameShot s s') :
    c.Counted s' := by
  refine ⟨fun hnone => ?_, fun hnone hrep => ?_⟩
  · rw [hs.cutBytes, hs.roundsCut]
    exact h.cutBytes (hs.shotRounds ▸ hnone)
  · rw [hs.roundsCut]
    exact h.round (hs.shotRounds ▸ hnone) hrep

theorem sameShot_pollLoop (least fuel : Nat) : SameShot s (c.pollLoop least fuel s).1 := by
  induction fuel generalizing s with
  | zero => exact SameShot.refl s
  | succ fuel ih =>
    unfold pollLoop
    simp only
    split
    · exact SameShot.refl s
    split
    · exact SameShot.refl s
    split
    · constructor <;> rfl
    · have hnext := ih (s := { s with nextIndex := s.nextIndex + 1 })
      exact ⟨hnext.roundsCut, hnext.cutBytes, hnext.shotRounds, hnext.failed⟩

theorem sameShot_poll : SameShot s (c.poll s).1 := by
  unfold poll
  split
  · exact SameShot.refl s
  · exact sameShot_pollLoop _ _

theorem sameShot_release (l slot : Nat) : SameShot s (orKept s (c.release s l slot)).1 := by
  unfold release
  split
  · constructor <;> rfl
  · exact SameShot.refl s

/-- A call that takes no record and starts no shot leaves the shot alone. -/
theorem sameShot_call (call : IngestCall) (henqueue : ∀ rec, call ≠ .enqueue rec)
    (hreset : (c.call s call).2 ≠ .restarted (.ok ())) : SameShot s (c.call s call).1 := by
  cases call with
  | enqueue rec => exact absurd rfl (henqueue rec)
  | poll => exact sameShot_poll
  | release l slot => exact sameShot_release l slot
  | reset =>
    change IngestAnswer.restarted (orKept s (c.reset s)).2 ≠ _ at hreset
    change SameShot s (orKept s (c.reset s)).1
    cases hresult : c.reset s with
    | ok s' => exact absurd (by rw [hresult]; rfl) hreset
    | error e => exact SameShot.refl s
  | _ => exact SameShot.refl s

theorem Counted.call (h : c.Counted s) (call : IngestCall) : c.Counted (c.call s call).1 := by
  cases call with
  | enqueue rec => exact (h.enqueue rec).counted
  | reset =>
    change c.Counted (orKept s (c.reset s)).1
    unfold reset
    split
    · exact h
    · exact counted_newShot
  | _ => exact h.of_sameShot (sameShot_call _ nofun nofun)

theorem counted_after (calls : List IngestCall) (h : c.Counted s) : c.Counted (c.after s calls) := by
  induction calls generalizing s with
  | nil => exact h
  | cons call calls ih => exact ih (h.call call)

theorem Closed.enqueue (h : Closed s) (rec : IngestRecord) :
    (c.enqueue s rec).1 = s ∧ ∃ e, (c.enqueue s rec).2 = .error e := by
  unfold IngestCore.enqueue
  split
  · exact ⟨rfl, _, rfl⟩
  next hfailed =>
  have hshot : s.shotRounds.isSome = true := h.resolve_left hfailed
  rw [if_pos hshot]
  exact ⟨rfl, _, rfl⟩

/-- Nothing but `reset` opens a closed state. -/
theorem Closed.call (h : Closed s) (call : IngestCall)
    (hreset : (c.call s call).2 ≠ .restarted (.ok ())) : Closed (c.call s call).1 := by
  by_cases henqueue : ∃ rec, call = .enqueue rec
  · obtain ⟨rec, rfl⟩ := henqueue
    change Closed (c.enqueue s rec).1
    rw [(h.enqueue rec).1]
    exact h
  · have hs := sameShot_call (c := c) (s := s) call (fun rec heq => henqueue ⟨rec, heq⟩) hreset
    rw [Closed, hs.failed, hs.shotRounds]
    exact h

theorem Closed.after (h : Closed s) (calls : List IngestCall)
    (hreset : ∀ answer ∈ c.answers s calls, answer ≠ .restarted (.ok ())) :
    Closed (c.after s calls) := by
  induction calls generalizing s with
  | nil => exact h
  | cons call calls ih =>
    apply ih (h.call call (hreset _ List.mem_cons_self))
    intro answer hanswer
    exact hreset answer (List.mem_cons_of_mem _ hanswer)

/-- A record that `enqueue` defers changes nothing that later calls see. One that it throws changes
nothing but `failed`, and every later record is thrown until a `reset` succeeds. -/
theorem enqueue_atomic (c : IngestCore) (calls : List IngestCall) (rec : IngestRecord) :
    ((c.enqueue (c.after c.initial calls) rec).2 = .ok .deferred →
      (c.enqueue (c.after c.initial calls) rec).1 = c.after c.initial calls ∧
      ∀ later, c.answers (c.enqueue (c.after c.initial calls) rec).1 later =
        c.answers (c.after c.initial calls) later) ∧
    ∀ e, (c.enqueue (c.after c.initial calls) rec).2 = .error e →
      (c.enqueue (c.after c.initial calls) rec).1 = { c.after c.initial calls with
        failed := (c.enqueue (c.after c.initial calls) rec).1.failed } ∧
      ∀ later, (∀ answer ∈ c.answers (c.enqueue (c.after c.initial calls) rec).1 later,
          answer ≠ .restarted (.ok ())) →
        ∀ rec', ∃ e', (c.enqueue
          (c.after (c.enqueue (c.after c.initial calls) rec).1 later) rec').2 = .error e' := by
  have hcounted : c.Counted (c.after c.initial calls) := counted_after calls counted_newShot
  have htaken := hcounted.enqueue rec
  refine ⟨fun hdeferred => ?_, fun e hthrown => ?_⟩
  · have hsame := htaken.deferred hdeferred
    exact ⟨hsame, fun later => by rw [hsame]⟩
  · obtain ⟨hsame, hclosed⟩ := htaken.thrown e hthrown
    refine ⟨hsame, fun later hreset rec' => ?_⟩
    exact ((hclosed.after later hreset).enqueue rec').2

end IngestCore

end CudaqQec
