import CudaqQec.Ingest.Forming

/-!
# Cutting rounds

`cut` appends measurements to the round being cut and completes rounds; a round whose phase is known
is formed. `Cutting` is the invariant that one pass of its loop keeps:

* the rounds cut are whole and the round being cut is not, unless it is the readout round;
* a round after the prefix is formed only if every shot the measurements allow holds the suffix
  after it (`safe`);
* few rounds wait to be formed (`lag`), so that no raw round that is still read loses its slot.

`least_le` and `roundsCut_le_least` are the two sides of `least_shot_rounds`: no shot that the
measurements allow is shorter, and it is not far behind the rounds cut.
-/

namespace CudaqQec

open Slots

def IngestState.received (s : IngestState) : Nat := s.cutBytes + s.partialRound

namespace IngestCore

variable {c : IngestCore} {bytes : Nat → UInt8} {s : IngestState}

/-! ## `least_shot_rounds` -/

/-- The walk back ends at the first round, or at one that starts before `earliest` while the next
one does not. -/
theorem walkBack_spec (earliest first : Nat) :
    c.walkBack earliest first (c.forwardOffset (first - 1)) ≤ first ∧
      (c.walkBack earliest first (c.forwardOffset (first - 1)) = 0 ∨
        c.forwardOffset (c.walkBack earliest first (c.forwardOffset (first - 1)) - 1) < earliest) ∧
      (c.walkBack earliest first (c.forwardOffset (first - 1)) = first ∨
        earliest ≤ c.forwardOffset (c.walkBack earliest first (c.forwardOffset (first - 1)))) := by
  induction first with
  | zero => exact ⟨le_refl _, .inl rfl, .inl rfl⟩
  | succ first ih =>
    unfold walkBack
    rw [Nat.add_sub_cancel]
    split
    · next hle =>
      have hstart : (if 0 < first then c.forwardOffset first - c.forwardWidth (first - 1)
          else c.forwardOffset first) = c.forwardOffset (first - 1) := by
        cases first with
        | zero => rfl
        | succ f =>
          rw [if_pos (Nat.succ_pos f), forwardOffset_succ, Nat.add_sub_cancel, Nat.add_sub_cancel]
      rw [hstart]
      obtain ⟨h1, h2, h3⟩ := ih
      refine ⟨by omega, h2, .inr ?_⟩
      rcases h3 with h3 | h3
      · rwa [h3]
      · exact h3
    · next hlt => exact ⟨le_refl _, .inr (not_le.mp hlt), .inl rfl⟩

/-- The rounds a record before FINAL may cut. -/
def CutRound (c : IngestCore) (shot : Option Nat) (r : Nat) : Prop :=
  match shot with
  | none => c.repeats = false → r < c.prefixRounds
  | some R => c.t.Admits R ∧ r < R

theorem CutRound.known {shot : Option Nat} {r q : Nat} (h : c.CutRound shot r) (hq : q < r) :
    c.KnownRound shot q := by
  cases shot with
  | none =>
    intro hrep
    have := h hrep
    omega
  | some R => exact ⟨h.1, hq.trans h.2⟩

theorem CutRound.before {shot : Option Nat} {r q : Nat} (h : c.CutRound shot r) (hq : q < r) :
    c.CutBeforeFinal q := by
  intro hrep
  cases shot with
  | none =>
    have := h hrep
    omega
  | some R =>
    have := c.fixed_eq h.1 hrep
    have := h.2
    omega

theorem CutRound.roundWidth {shot : Option Nat} {r q : Nat} (h : c.CutRound shot r) (hq : q < r) :
    c.roundWidth shot q = c.forwardWidth q := by
  refine if_neg ?_
  rintro rfl
  have := h.2
  omega

theorem CutRound.one_le_cutWidth (h : c.CutRound s.shotRounds s.roundsCut) :
    1 ≤ c.cutWidth s := by
  unfold cutWidth
  split
  · exact c.one_le_lastWidth
  · refine c.one_le_forwardWidth fun hrep => ?_
    cases hshot : s.shotRounds with
    | none =>
      rw [hshot] at h
      exact h hrep
    | some R =>
      rw [hshot] at h
      rw [(c.fixed_eq h.1 hrep).1]
      exact h.2

/-- No shot that the measurements allow is shorter. -/
theorem least_le (hshot : s.shotRounds = none) (hcut : s.cutBytes = c.forwardOffset s.roundsCut)
    {R : Nat} (hR : c.t.Admits R) (hle : s.received ≤ c.forwardOffset (R - 1) + c.lastWidth) :
    c.leastShotRounds s ≤ R := by
  have htwo := c.two_le hR
  unfold leastShotRounds
  rw [hshot]
  simp only
  split
  · obtain ⟨-, h2, -⟩ := walkBack_spec (c := c) (s.cutBytes + s.partialRound - c.lastWidth)
      (s.roundsCut + 1)
    rw [Nat.add_sub_cancel, ← hcut] at h2
    refine max_le ?_ hR.1
    rcases h2 with h2 | h2
    · omega
    · by_contra hn
      have hmono : c.forwardOffset (R - 1) ≤ c.forwardOffset
          (c.walkBack (s.cutBytes + s.partialRound - c.lastWidth) (s.roundsCut + 1) s.cutBytes - 1) :=
        c.forwardOffset_mono (by omega)
      unfold IngestState.received at hle
      omega
  · exact hR.1

/-- The rounds cut are at most a readout round's width past the shortest shot. -/
theorem roundsCut_le_least (hshot : s.shotRounds = none) (hrep : c.repeats = true)
    (hcut : s.cutBytes = c.forwardOffset s.roundsCut) :
    s.roundsCut + 1 ≤ c.leastShotRounds s + c.readoutReach := by
  unfold leastShotRounds
  rw [hshot]
  simp only [hrep, if_true]
  obtain ⟨-, -, h3⟩ := walkBack_spec (c := c) (s.cutBytes + s.partialRound - c.lastWidth)
    (s.roundsCut + 1)
  rw [Nat.add_sub_cancel, ← hcut] at h3
  set first := c.walkBack (s.cutBytes + s.partialRound - c.lastWidth) (s.roundsCut + 1) s.cutBytes
  have hback : s.roundsCut - first ≤ c.readoutReach := by
    rcases Nat.lt_or_ge first s.roundsCut with hlt | hge
    · rw [readoutReach, Nat.le_div_iff_mul_le c.one_le_minForwardWidth]
      have := c.mul_minForwardWidth_le (le_of_lt hlt) (fun q _ hn => by simp [hrep] at hn)
      omega
    · omega
  omega

/-! ## Records -/

/-- `data` are the measurements of the stream from `n` on. -/
def Carries (bytes : Nat → UInt8) (n : Nat) (data : List UInt8) : Prop :=
  ∀ i < data.length, data[i]? = some (bytes (n + i))

theorem Carries.take {n : Nat} {data : List UInt8} (h : Carries bytes n data) (k : Nat) :
    Carries bytes n (data.take k) := by
  intro i hi
  rw [List.length_take] at hi
  rw [List.getElem?_take_of_lt (by omega)]
  exact h i (by omega)

theorem Carries.drop {n : Nat} {data : List UInt8} (h : Carries bytes n data) (k : Nat) :
    Carries bytes (n + k) (data.drop k) := by
  intro i hi
  rw [List.length_drop] at hi
  rw [List.getElem?_drop, h (k + i) (by omega), Nat.add_assoc]

/-! ## The invariant -/

/-- What holds of a state whose rounds are cut up to `roundsCut`, whatever is left to form. -/
structure CutTo (c : IngestCore) (bytes : Nat → UInt8) (s : IngestState) : Prop where
  cutBytes : s.cutBytes = c.forwardOffset s.roundsCut
  round : c.CutRound s.shotRounds s.roundsCut
  cutting : s.partialRound < c.cutWidth s ∨ c.atReadout s = true ∧ s.partialRound = c.lastWidth
  formed_le : s.formed ≤ s.roundsCut
  safe : s.shotRounds = none → ∀ R, c.t.Admits R →
    s.received ≤ c.forwardOffset (R - 1) + c.lastWidth →
    s.formed ≤ c.prefixRounds ∨ s.formed + c.suffixRounds ≤ R
  staged : c.Staged bytes s
  ring : c.RingHolds bytes s

/-- The invariant of `cut`: few rounds wait to be formed. -/
structure Cutting (c : IngestCore) (bytes : Nat → UInt8) (s : IngestState) : Prop
    extends CutTo c bytes s where
  lag : s.roundsCut ≤ s.formed + c.suffixRounds + c.readoutReach

theorem cutWidth_congr {s s' : IngestState} (h1 : s'.roundsCut = s.roundsCut)
    (h2 : s'.shotRounds = s.shotRounds) :
    c.cutWidth s' = c.cutWidth s ∧ c.atReadout s' = c.atReadout s := by
  have hat : c.atReadout s' = c.atReadout s := by simp only [atReadout, h1, h2]
  exact ⟨by rw [cutWidth, cutWidth, hat, h1], hat⟩

theorem cutWidth_le_maxWidth : c.cutWidth s ≤ c.maxWidth := by
  unfold cutWidth
  split
  · exact c.lastWidth_le_maxWidth
  · exact c.forwardWidth_le_maxWidth _

/-- Different raw rounds that are still read, and the one being cut, have different slots. -/
theorem Cutting.slot_ne (h : c.Cutting bytes s) {q : Nat} (hq : s.formed ≤ q + 1)
    (hlt : q < s.roundsCut) : q % c.stagedSlots ≠ s.roundsCut % c.stagedSlots := by
  have := h.lag
  refine mod_ne_of_near hlt ?_
  rw [c.stagedSlots_eq]
  omega

/-- Forming rounds keeps the invariant, and leaves few waiting. -/
theorem CutTo.formKnownRounds (h : c.CutTo bytes s) : c.Cutting bytes (c.formKnownRounds s) ∧
    SameInput s (c.formKnownRounds s) ∧ c.Keeps s (c.formKnownRounds s) := by
  have hspec := formKnownRounds_spec h.formed_le h.ring h.staged
    (fun q _ hq => h.round.known hq)
  set s' := c.formKnownRounds s
  have hs := hspec.same
  obtain ⟨hw, hat⟩ := cutWidth_congr (c := c) hs.roundsCut hs.shotRounds
  have hle : s'.formed ≤ s.roundsCut := by
    have := hspec.formed_le
    have := h.formed_le
    omega
  refine ⟨⟨⟨?_, ?_, ?_, ?_, ?_, hspec.staged, hspec.ring⟩, ?_⟩, hs, hspec.keeps⟩
  · rw [hs.cutBytes, hs.roundsCut]
    exact h.cutBytes
  · rw [hs.shotRounds, hs.roundsCut]
    exact h.round
  · rw [hw, hat, hs.partialRound]
    exact h.cutting
  · rw [hs.roundsCut]
    exact hle
  · intro hnone R hR hrec
    rw [hs.shotRounds] at hnone
    unfold IngestState.received at hrec
    rw [hs.cutBytes, hs.partialRound] at hrec
    have hleast := least_le hnone h.cutBytes hR hrec
    -- a formed round was known, or lies so far back that every shot has it
    rcases hspec.known with hk | hk | hk | hk
    · rw [hk]
      exact h.safe hnone R hR hrec
    · simp [hnone] at hk
    · exact .inl hk
    · exact .inr (by omega)
  -- what still waits is one round, or the shot has not shown its length
  · rw [hs.roundsCut]
    rcases hspec.upTo with hk | hk
    · omega
    · unfold FormsNext at hk
      push Not at hk
      obtain ⟨hsome, hpre, hsfx⟩ := hk
      have hnone : s.shotRounds = none := by
        rw [hs.shotRounds] at hsome
        simpa using hsome
      cases hrep : c.repeats with
      | true =>
        have := roundsCut_le_least hnone hrep h.cutBytes
        omega
      | false =>
        have hround := h.round
        rw [hnone] at hround
        have := hround hrep
        omega

/-! ## Staging -/

theorem stage_cutting (h : c.Cutting bytes s) {data : List UInt8}
    (hdata : Carries bytes s.received data) (hfit : s.partialRound + data.length ≤ c.maxWidth) :
    c.Staged bytes (c.stage s data) := by
  have hother : ∀ q i, s.formed ≤ q + 1 → q < s.roundsCut → i < c.maxWidth →
      c.stagedAt (c.stage s data) q i = c.stagedAt s q i := by
    intro q i hq hlt hi
    exact write_other_slot hfit hi (h.slot_ne hq hlt)
  refine ⟨h.staged.width, fun q i hq hcut hi => ?_, fun i hi => ?_⟩
  · have hi' : i < c.forwardWidth q := by rwa [← h.round.roundWidth hcut]
    rw [hother q i hq hcut (hi'.trans_le (c.forwardWidth_le_maxWidth q))]
    exact h.staged.round q i hq hcut hi
  · have hi : i < s.partialRound + data.length := hi
    show c.stagedAt (c.stage s data) s.roundsCut i = bytes (c.forwardOffset s.roundsCut + i)
    rcases Nat.lt_or_ge i s.partialRound with hlt | hge
    · rw [← h.staged.cutting i hlt]
      exact write_slot_before hlt
    · obtain ⟨j, rfl⟩ := Nat.exists_eq_add_of_le hge
      have hj := hdata j (by omega)
      have hw := write_slot s.staged c.maxWidth (s.roundsCut % c.stagedSlots) s.partialRound j data
      rw [hj, Option.getD_some, IngestState.received, h.cutBytes, Nat.add_assoc] at hw
      exact hw

def completed (c : IngestCore) (s : IngestState) (width : Nat) : IngestState :=
  { s with
    stagedWidth := Function.update s.stagedWidth (s.roundsCut % c.stagedSlots) width
    roundsCut := s.roundsCut + 1
    cutBytes := s.cutBytes + width
    partialRound := 0 }

theorem completeRound_eq (width : Nat) :
    c.completeRound s width = c.formKnownRounds (c.completed s width) := rfl

theorem completed_staged {width : Nat} (hstaged : c.Staged bytes s)
    (hslot : ∀ q, s.formed ≤ q + 1 → q < s.roundsCut →
      q % c.stagedSlots ≠ s.roundsCut % c.stagedSlots)
    (hpart : s.partialRound = width) (hwidth : width = c.roundWidth s.shotRounds s.roundsCut) :
    c.Staged bytes (c.completed s width) := by
  refine ⟨fun q hq hcut => ?_, fun q i hq hcut hi => ?_, fun i hi => absurd hi (Nat.not_lt_zero i)⟩
  · have hcut : q < s.roundsCut + 1 := hcut
    rcases Nat.lt_succ_iff_lt_or_eq.mp hcut with hlt | rfl
    · exact (Function.update_of_ne (hslot q hq hlt) _ _).trans (hstaged.width q hq hlt)
    · exact (Function.update_self _ _ _).trans hwidth
  · have hcut : q < s.roundsCut + 1 := hcut
    rcases Nat.lt_succ_iff_lt_or_eq.mp hcut with hlt | rfl
    · exact hstaged.round q i hq hlt hi
    · have hi : i < c.roundWidth s.shotRounds s.roundsCut := hi
      exact hstaged.cutting i (by omega)

/-! ## `cut` -/

/-- What `cut` leaves alone. -/
structure SameOutput (s s' : IngestState) : Prop where
  pools : s'.pools = s.pools
  out : s'.out = s.out
  finalInstances : s'.finalInstances = s.finalInstances
  shotRounds : s'.shotRounds = s.shotRounds
  nextIndex : s'.nextIndex = s.nextIndex
  indexEnd : s'.indexEnd = s.indexEnd
  failed : s'.failed = s.failed

theorem SameInput.output {s s' : IngestState} (h : SameInput s s') : SameOutput s s' :=
  ⟨h.pools, h.out, h.finalInstances, h.shotRounds, h.nextIndex, h.indexEnd, h.failed⟩

theorem SameOutput.trans {s s' s'' : IngestState} (h : SameOutput s s') (h' : SameOutput s' s'') :
    SameOutput s s'' :=
  ⟨h'.pools.trans h.pools, h'.out.trans h.out, h'.finalInstances.trans h.finalInstances,
    h'.shotRounds.trans h.shotRounds, h'.nextIndex.trans h.nextIndex, h'.indexEnd.trans h.indexEnd,
    h'.failed.trans h.failed⟩

/-- The measurements that `cut` may be given: before FINAL those of the shot, and with the shot's
length known those before the readout round. -/
def MayCut (c : IngestCore) (s : IngestState) (len : Nat) : Prop :=
  match s.shotRounds with
  | none => c.repeats = false → s.received + len ≤ c.fixedMeasurements
  | some R => s.received + len ≤ c.forwardOffset (R - 1)

/-- What `cut` does. -/
structure Cuts (c : IngestCore) (bytes : Nat → UInt8) (len : Nat) (s s' : IngestState) : Prop where
  cutting : c.Cutting bytes s'
  output : SameOutput s s'
  keeps : c.Keeps s s'
  received : s'.received = s.received + len

theorem fixedMeasurements_eq (hrep : c.repeats = false) :
    c.fixedMeasurements = c.forwardOffset (c.prefixRounds - 1) + c.lastWidth ∧
      2 ≤ c.prefixRounds := by
  obtain ⟨hpre, -⟩ := c.fixed_eq c.admits_probe hrep
  have htwo := c.two_le c.admits_probe
  have hsum : ∀ r ≤ c.prefixRounds,
      ((List.range r).map c.prefixWidth).sum = c.forwardOffset r := by
    intro r hr
    induction r with
    | zero => rfl
    | succ r ih =>
      rw [List.range_succ, List.map_append, List.sum_append, ih (by omega), forwardOffset_succ]
      simp [IngestSetup.forwardWidth, show r < c.prefixRounds by omega]
  refine ⟨?_, by omega⟩
  have hlast : c.forwardWidth (c.prefixRounds - 1) = c.lastWidth := by
    unfold IngestSetup.forwardWidth
    rw [if_pos (by omega), hpre]
    rfl
  unfold IngestSetup.fixedMeasurements
  rw [if_neg (by simp [hrep]), hsum _ (le_refl _)]
  conv_lhs => rw [show c.prefixRounds = c.prefixRounds - 1 + 1 by omega]
  rw [forwardOffset_succ, hlast]

/-- Staging part of a record keeps the invariant while the round being cut is not complete. -/
theorem Cutting.stage (h : c.Cutting bytes s) {data : List UInt8}
    (hdata : Carries bytes s.received data)
    (hfit : s.partialRound + data.length < c.cutWidth s ∨
      c.atReadout s = true ∧ s.partialRound + data.length = c.lastWidth) :
    c.Cuts bytes data.length s (c.stage s data) := by
  have hmax := cutWidth_le_maxWidth (c := c) (s := s)
  have hlast := c.lastWidth_le_maxWidth
  have hstaged := stage_cutting h hdata (by rcases hfit with hf | ⟨-, hf⟩ <;> omega)
  have hrec : (c.stage s data).received = s.received + data.length := by
    show s.cutBytes + (s.partialRound + data.length) = s.cutBytes + s.partialRound + data.length
    omega
  refine ⟨⟨⟨h.cutBytes, h.round, hfit, h.formed_le, fun hnone R hR hle => ?_, hstaged,
    h.ring.of_ring_eq rfl rfl rfl rfl rfl rfl rfl⟩, h.lag⟩, by constructor <;> rfl, .of_ring_eq rfl rfl rfl rfl rfl, hrec⟩
  exact h.safe hnone R hR (by omega)

/-- Filling the round being cut completes it. -/
theorem Cutting.complete (h : c.Cutting bytes s) {data : List UInt8}
    (hdata : Carries bytes s.received data) (hat : c.atReadout s = false)
    (hfull : s.partialRound + data.length = c.cutWidth s) (hmay : c.MayCut s data.length) :
    c.Cuts bytes data.length s (c.completeRound (c.stage s data) (c.cutWidth s)) := by
  have hwidth : c.cutWidth s = c.forwardWidth s.roundsCut := if_neg (by simp [hat])
  have hmax := cutWidth_le_maxWidth (c := c) (s := s)
  have hstaged := stage_cutting h hdata (by omega)
  have hrec : s.received + data.length = c.forwardOffset (s.roundsCut + 1) := by
    rw [forwardOffset_succ, ← hwidth, IngestState.received, h.cutBytes]
    omega
  -- The next round may be cut: the readout round of a shot that does not repeat is not complete yet,
  -- and with the length known the measurements end before the readout round.
  have hround : c.CutRound s.shotRounds (s.roundsCut + 1) := by
    have hr := h.round
    unfold MayCut at hmay
    cases hshot : s.shotRounds with
    | none =>
      rw [hshot] at hr
      intro hrep
      have := hr hrep
      have hne : s.roundsCut + 1 ≠ c.prefixRounds := by
        intro heq
        simp [atReadout, hrep, heq, hshot] at hat
      omega
    | some R =>
      rw [hshot] at hr hmay
      refine ⟨hr.1, ?_⟩
      by_contra hn
      have hlast : s.roundsCut + 1 = R := by
        have := hr.2
        omega
      have hcut := h.cutting
      rw [hat] at hcut
      simp only [Bool.false_eq_true, false_and, or_false] at hcut
      simp only [hrec] at hmay
      rw [← hlast, Nat.add_sub_cancel, forwardOffset_succ, ← hwidth] at hmay
      omega
  have hcut : c.CutTo bytes (c.completed (c.stage s data) (c.cutWidth s)) := by
    refine ⟨?_, hround, .inl ?_, h.formed_le.trans (Nat.le_succ _), fun hnone R hR hle => ?_, ?_,
      h.ring.of_ring_eq rfl rfl rfl rfl rfl rfl rfl⟩
    · show s.cutBytes + c.cutWidth s = c.forwardOffset (s.roundsCut + 1)
      rw [forwardOffset_succ, hwidth, h.cutBytes]
    · exact CutRound.one_le_cutWidth (s := c.completed (c.stage s data) (c.cutWidth s)) hround
    · exact h.safe hnone R hR (le_trans (by
        show s.cutBytes + s.partialRound ≤ s.cutBytes + c.cutWidth s + 0
        omega) hle)
    · refine completed_staged hstaged (fun q hq hlt => h.slot_ne hq hlt) hfull ?_
      rw [hwidth]
      refine (if_neg fun heq => ?_).symm
      have heq : s.shotRounds = some (s.roundsCut + 1) := heq
      rw [heq] at hround
      have := hround.2
      omega
  obtain ⟨h1, h2, h3⟩ := hcut.formKnownRounds
  refine ⟨h1, ?_, ?_, ?_⟩
  · exact SameOutput.trans (by constructor <;> rfl) h2.output
  · have hk : c.Keeps s (c.completed (c.stage s data) (c.cutWidth s)) :=
      .of_ring_eq rfl rfl rfl rfl rfl
    exact hk.trans h3
  · rw [completeRound_eq, IngestState.received, h2.cutBytes, h2.partialRound]
    show s.cutBytes + c.cutWidth s + 0 = s.cutBytes + s.partialRound + data.length
    omega

end IngestCore

end CudaqQec
