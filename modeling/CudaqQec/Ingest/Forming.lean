import CudaqQec.Ingest.Rounds

/-!
# Forming rounds

What the buffers hold, against a stream of measurements: `Staged` says which raw rounds are staged,
`RingHolds` which rounds' detectors the ring still has. Forming a round keeps both, and leaves every
round of the ring that is less than a ring behind (`Keeps`).

* `formRows_eq`: detectors formed from staged rounds are those of the stream.
* `formKnownRounds_spec`: what `form_known_rounds` does.
-/

namespace CudaqQec

open Slots

/-! ## Detectors of a `D_sparse` -/

theorem length_detectorRows (read : Nat → UInt8) (d : List Int) (value : UInt8) :
    (detectorRows read d value).length = d.count (-1) := by
  induction d generalizing value with
  | nil => rfl
  | cons index d ih =>
    unfold detectorRows
    split
    · next h => simp [h, ih]
    · next h => rw [ih, List.count_cons_of_ne h]

theorem detectorRows_congr {read read' : Nat → UInt8} {d : List Int} (value : UInt8)
    (h : ∀ index ∈ d, index ≠ -1 → read (sizeT index) = read' (sizeT index)) :
    detectorRows read d value = detectorRows read' d value := by
  induction d generalizing value with
  | nil => rfl
  | cons index d ih =>
    have hd : ∀ i ∈ d, i ≠ -1 → read (sizeT i) = read' (sizeT i) :=
      fun i hi => h i (List.mem_cons_of_mem _ hi)
    unfold detectorRows
    split
    · rw [ih 0 hd]
    · next hne => rw [ih _ hd, h index (by simp) hne]

namespace IngestCore

variable (c : IngestCore)

/-! ## Rounds over a stream -/

/-- The width round `q` is staged at: the readout round's is the last one's. -/
def roundWidth (shot : Option Nat) (q : Nat) : Nat :=
  if shot = some (q + 1) then c.lastWidth else c.forwardWidth q

def roundRows (shot : Option Nat) (bytes : Nat → UInt8) (r : Nat) : List UInt8 :=
  if c.hasD then detectorRows (fun i => bytes (c.forwardOffset (r - 1) + i)) (c.kindOf shot r).2 0
  else (List.range (c.kindOf shot r).1).map fun j =>
    (bytes (c.forwardOffset r + j) ^^^
      (if r = 0 then 0 else bytes (c.forwardOffset (r - 1) + j))) &&& 1

/-- A round the shot has: before FINAL one that may be cut, after it one of the shot's. -/
def KnownRound (shot : Option Nat) (r : Nat) : Prop :=
  match shot with
  | none => c.CutBeforeFinal r
  | some R => c.t.Admits R ∧ r < R

variable {c}

/-- Before FINAL there is a longer shot, with the round before its suffix. -/
theorem CutBeforeFinal.exists_admits {r : Nat} (h : c.CutBeforeFinal r) :
    ∃ R, c.t.Admits R ∧ r + 1 < R ∧ (r < c.prefixRounds ∨ r + c.suffixRounds < R) := by
  cases hrep : c.repeats with
  | true =>
    refine ⟨max c.t.minRounds (r + c.suffixRounds + 2),
      c.context.admits_of_le hrep (le_max_left _ _), ?_, .inr ?_⟩ <;> omega
  | false =>
    have hadm : c.t.Admits c.t.minRounds := ⟨le_refl _, fun _ => rfl⟩
    have h1 := c.fixed_eq hadm hrep
    have h2 := h hrep
    exact ⟨_, hadm, by omega, .inl (by omega)⟩

theorem KnownRound.lt {shot : Option Nat} {r : Nat} (h : c.KnownRound shot r) :
    ∀ R ∈ shot, r < R := by
  rintro R ⟨rfl⟩
  exact h.2

/-- What a known round reads lies in its round and the one before. -/
structure RoundFits (shot : Option Nat) (r : Nat) : Prop where
  index : c.hasD = true → ∀ index ∈ (c.kindOf shot r).2, index ≠ -1 →
    sizeT index < (if r = 0 then 0 else c.forwardWidth (r - 1)) + c.roundWidth shot r
  rows : c.hasD = false → (c.kindOf shot r).1 = c.roundWidth shot r ∧
    (0 < r → c.forwardWidth (r - 1) = c.roundWidth shot r)

theorem KnownRound.fits {shot : Option Nat} {r : Nat} (h : c.KnownRound shot r) :
    c.RoundFits shot r := by
  obtain ⟨R, hR, hr, hkind, hwidth⟩ : ∃ R, c.t.Admits R ∧ r < R ∧
      c.kindOf shot r = (rowsOfRound c.t r R, dOf c.t r R) ∧
      c.roundWidth shot r = widthOf c.t r R := by
    cases shot with
    | none =>
      obtain ⟨R, hR, hr, hrange⟩ := h.exists_admits
      refine ⟨R, hR, by omega, ?_, ?_⟩
      · rw [c.kindOf_none hrange, c.kindOf_eq hR (by omega)]
      · rw [c.width_eq hR (by omega), if_neg (by omega), roundWidth, if_neg (by simp)]
    | some R =>
      refine ⟨R, h.1, h.2, c.kindOf_eq h.1 h.2, ?_⟩
      rw [c.width_eq h.1 h.2, roundWidth]
      simp only [Option.some.injEq, eq_comm (a := R)]
  have hm := c.round_measured hR hr
  have hbefore : 0 < r → widthOf c.t (r - 1) R = c.forwardWidth (r - 1) := by
    intro h0
    rw [c.width_eq hR (by omega), if_neg (by omega)]
  refine ⟨fun hD index hi hne => ?_, fun hD => ?_⟩
  · rw [hkind] at hi
    have := hm.index hD index hi hne
    rw [hwidth]
    split at this
    · next h0 => rwa [if_pos h0]
    · next h0 => rwa [if_neg h0, ← hbefore (by omega)]
  · obtain ⟨h1, h2⟩ := hm.rows hD
    rw [hkind, hwidth]
    exact ⟨h1, fun h0 => (hbefore h0).symm.trans (h2 h0)⟩

/-! ## Raw rounds -/

variable (c)

/-- The raw rounds that forming still reads are staged: from the one before the next round to form,
to the measurements of the round being cut. -/
structure Staged (bytes : Nat → UInt8) (s : IngestState) : Prop where
  width : ∀ q, s.formed ≤ q + 1 → q < s.roundsCut →
    s.stagedWidth (q % c.stagedSlots) = c.roundWidth s.shotRounds q
  round : ∀ q i, s.formed ≤ q + 1 → q < s.roundsCut → i < c.roundWidth s.shotRounds q →
    c.stagedAt s q i = bytes (c.forwardOffset q + i)
  cutting : ∀ i < s.partialRound, c.stagedAt s s.roundsCut i = bytes (c.forwardOffset s.roundsCut + i)

variable {c} {bytes : Nat → UInt8} {s : IngestState}

/-- Detectors formed from raw rounds that hold a stream's measurements, `before` of them from
`base` on and then this round's. -/
theorem formRows_eq_of_reads {r base before width : Nat} (hzero : r = 0 → before = 0)
    (hwidth : 0 < r → s.stagedWidth ((r - 1) % c.stagedSlots) = before)
    (hbefore : ∀ i, 0 < r → i < before → c.stagedAt s (r - 1) i = bytes (base + i))
    (hthis : ∀ i < width, c.stagedAt s r i = bytes (base + before + i))
    (hindex : c.hasD = true → ∀ index ∈ (c.kindOf s.shotRounds r).2, index ≠ -1 →
      sizeT index < before + width)
    (hrows : c.hasD = false → (c.kindOf s.shotRounds r).1 = width ∧ (0 < r → before = width)) :
    c.formRows s r = if c.hasD then
        detectorRows (fun i => bytes (base + i)) (c.kindOf s.shotRounds r).2 0
      else (List.range (c.kindOf s.shotRounds r).1).map fun j =>
        (bytes (base + before + j) ^^^ (if r = 0 then 0 else bytes (base + j))) &&& 1 := by
  unfold formRows
  cases hD : c.hasD with
  | true =>
    simp only [if_true]
    apply detectorRows_congr
    intro index hi hne
    have hlt := hindex hD index hi hne
    -- a read of the round before starts where that round is as wide as it was staged
    have hw : (if r = 0 then 0 else s.stagedWidth ((r - 1) % c.stagedSlots)) = before := by
      split
      · next h0 => exact (hzero h0).symm
      · exact hwidth (by omega)
    simp only [hw]
    split
    · next hi' =>
      refine hbefore _ ?_ hi'
      by_contra h0
      have := hzero (by omega)
      omega
    · next hi' =>
      rw [hthis _ (by omega)]
      congr 1
      omega
  | false =>
    simp only [Bool.false_eq_true, if_false]
    obtain ⟨h1, h2⟩ := hrows hD
    apply List.map_congr_left
    intro j hj
    have hj := List.mem_range.mp hj
    rw [hthis j (by omega)]
    split
    · rfl
    · next h0 => rw [hbefore j (by omega) (by rw [h2 (by omega)]; omega)]

/-- Detectors formed from staged rounds are those of the stream. -/
theorem Staged.formRows_eq (h : c.Staged bytes s) {r : Nat} (hr : s.formed ≤ r) (hcut : r < s.roundsCut)
    (hknown : c.KnownRound s.shotRounds r) :
    c.formRows s r = c.roundRows s.shotRounds bytes r := by
  have hfits := hknown.fits
  have hprev : 0 < r → c.roundWidth s.shotRounds (r - 1) = c.forwardWidth (r - 1) := by
    intro h0
    refine if_neg fun heq => ?_
    have := hknown.lt _ heq
    omega
  have hoff : c.forwardOffset (r - 1) + (if r = 0 then 0 else c.forwardWidth (r - 1)) =
      c.forwardOffset r := by
    split
    · next h0 => rw [h0]; rfl
    · rw [← c.forwardOffset_succ, show r - 1 + 1 = r by omega]
  have hbefore : ∀ i, 0 < r → i < (if r = 0 then 0 else c.forwardWidth (r - 1)) →
      c.stagedAt s (r - 1) i = bytes (c.forwardOffset (r - 1) + i) := by
    intro i h0 hi
    rw [if_neg (by omega)] at hi
    exact h.round (r - 1) i (by omega) (by omega) (by rwa [hprev h0])
  rw [formRows_eq_of_reads (fun h0 => if_pos h0)
    (fun h0 => by rw [if_neg (by omega), h.width (r - 1) (by omega) (by omega), hprev h0]) hbefore
    (fun i hi => by rw [hoff]; exact h.round r i (by omega) hcut hi) hfits.index
    (fun hD => ⟨(hfits.rows hD).1, fun h0 => by
      rw [if_neg (by omega)]
      exact (hfits.rows hD).2 h0⟩), hoff]
  rfl

theorem length_formRows {r : Nat} (hlt : ∀ R ∈ s.shotRounds, r < R) :
    (c.formRows s r).length = (c.kindOf s.shotRounds r).1 := by
  unfold formRows
  cases hD : c.hasD with
  | true =>
    simp only [if_true, length_detectorRows]
    exact c.count_kindOf hD hlt
  | false => simp

/-! ## The ring -/

variable (c)

/-- The ring has round `q` of the stream. -/
structure HoldsRound (bytes : Nat → UInt8) (s : IngestState) (q : Nat) : Prop where
  round : s.ringRound (q % c.ringRounds) = q
  rows : s.ringRows (q % c.ringRounds) = (c.kindOf s.shotRounds q).1
  firstRow : s.ringFirstRow (q % c.ringRounds) = c.rowsBefore s.shotRounds q
  detectors : read s.ring (q % c.ringRounds * c.maxRows) (c.kindOf s.shotRounds q).1 =
    c.roundRows s.shotRounds bytes q

/-- The ring has every round less than a ring behind the next one to form. -/
structure RingHolds (bytes : Nat → UInt8) (s : IngestState) : Prop where
  round : ∀ q < s.formed, s.formed ≤ q + c.ringRounds → c.HoldsRound bytes s q
  rowsFormed : s.rowsFormed = c.rowsBefore s.shotRounds s.formed

/-- The ring entry of round `q` is the same in both states. -/
structure SameEntry (s s' : IngestState) (q : Nat) : Prop where
  round : s'.ringRound (q % c.ringRounds) = s.ringRound (q % c.ringRounds)
  rows : s'.ringRows (q % c.ringRounds) = s.ringRows (q % c.ringRounds)
  firstRow : s'.ringFirstRow (q % c.ringRounds) = s.ringFirstRow (q % c.ringRounds)
  detectors : ∀ i < c.maxRows,
    s'.ring (q % c.ringRounds * c.maxRows + i) = s.ring (q % c.ringRounds * c.maxRows + i)

/-- Rounds only get formed, and every round formed before stays in the ring until a ring later. -/
structure Keeps (s s' : IngestState) : Prop where
  formed_le : s.formed ≤ s'.formed
  entry : ∀ q < s.formed, s'.formed ≤ q + c.ringRounds → c.SameEntry s s' q

variable {c}

theorem Keeps.of_ring_eq {s s' : IngestState} (hf : s'.formed = s.formed) (h1 : s'.ring = s.ring)
    (h2 : s'.ringRows = s.ringRows) (h3 : s'.ringRound = s.ringRound)
    (h4 : s'.ringFirstRow = s.ringFirstRow) : c.Keeps s s' :=
  ⟨by rw [hf], fun _ _ _ => ⟨by rw [h3], by rw [h2], by rw [h4], fun _ _ => by rw [h1]⟩⟩

theorem Keeps.refl (s : IngestState) : c.Keeps s s := .of_ring_eq rfl rfl rfl rfl rfl

theorem Keeps.trans {s s' s'' : IngestState} (h : c.Keeps s s') (h' : c.Keeps s' s'') :
    c.Keeps s s'' := by
  refine ⟨h.formed_le.trans h'.formed_le, fun q hq hring => ?_⟩
  have hle := h.formed_le
  have hle' := h'.formed_le
  have e := h.entry q hq (by omega)
  have e' := h'.entry q (by omega) hring
  exact ⟨e'.round.trans e.round, e'.rows.trans e.rows, e'.firstRow.trans e.firstRow,
    fun i hi => (e'.detectors i hi).trans (e.detectors i hi)⟩

theorem HoldsRound.of_sameEntry {s s' : IngestState} {q : Nat} (h : c.HoldsRound bytes s q)
    (he : c.SameEntry s s' q) (hshot : s'.shotRounds = s.shotRounds)
    (hlt : ∀ R ∈ s.shotRounds, q < R) : c.HoldsRound bytes s' q := by
  have hle := c.kindOf_le_maxRows hlt
  refine ⟨he.round.trans h.round, ?_, ?_, ?_⟩
  · rw [he.rows, h.rows, hshot]
  · rw [he.firstRow, h.firstRow, hshot]
  · rw [hshot, ← h.detectors]
    exact read_congr fun i hi => he.detectors i (by omega)

theorem RingHolds.of_ring_eq {s s' : IngestState} (h : c.RingHolds bytes s)
    (hf : s'.formed = s.formed) (h1 : s'.ring = s.ring) (h2 : s'.ringRows = s.ringRows)
    (h3 : s'.ringRound = s.ringRound) (h4 : s'.ringFirstRow = s.ringFirstRow)
    (hrows : s'.rowsFormed = s.rowsFormed) (hshot : s'.shotRounds = s.shotRounds) :
    c.RingHolds bytes s' := by
  refine ⟨fun q hq hle => ?_, by rw [hrows, hshot, hf]; exact h.rowsFormed⟩
  rw [hf] at hq hle
  have hq' := h.round q hq hle
  exact ⟨by rw [h3]; exact hq'.round, by rw [h2, hshot]; exact hq'.rows,
    by rw [h4, hshot]; exact hq'.firstRow, by rw [h1, hshot]; exact hq'.detectors⟩

/-- The next round formed, one pass of `form_known_rounds`. -/
def formNext (c : IngestCore) (s : IngestState) : IngestState :=
  { c.formDetectors s s.formed with formed := s.formed + 1 }

theorem keeps_formNext (hlt : ∀ R ∈ s.shotRounds, s.formed < R) : c.Keeps s (c.formNext s) := by
  refine ⟨Nat.le_succ _, fun q hq hring => ?_⟩
  have hring : s.formed + 1 ≤ q + c.ringRounds := hring
  have hne : q % c.ringRounds ≠ s.formed % c.ringRounds := mod_ne_of_near hq (by omega)
  have hlen : (c.formRows s s.formed).length ≤ c.maxRows := by
    rw [length_formRows hlt]
    exact c.kindOf_le_maxRows hlt
  refine ⟨?_, ?_, ?_, fun i hi => ?_⟩ <;>
    simp only [formNext, formDetectors, land_ringRounds, Function.update_of_ne hne]
  exact write_other_slot (o := 0) (by omega) hi hne

theorem holdsRound_formNext (hring : c.RingHolds bytes s) (hstaged : c.Staged bytes s)
    (hcut : s.formed < s.roundsCut) (hknown : c.KnownRound s.shotRounds s.formed) :
    c.HoldsRound bytes (c.formNext s) s.formed := by
  have hrows := hstaged.formRows_eq (le_refl _) hcut hknown
  have hlen := length_formRows (c := c) hknown.lt
  refine ⟨?_, ?_, ?_, ?_⟩ <;>
    simp only [formNext, formDetectors, land_ringRounds, Function.update_self]
  · exact hring.rowsFormed
  · rw [← hrows, ← hlen, read_write]

theorem ringHolds_formNext (hring : c.RingHolds bytes s) (hstaged : c.Staged bytes s)
    (hcut : s.formed < s.roundsCut) (hknown : c.KnownRound s.shotRounds s.formed) :
    c.RingHolds bytes (c.formNext s) := by
  have hkeeps := keeps_formNext (c := c) hknown.lt
  refine ⟨fun q hq hle => ?_, ?_⟩
  · have hq : q < s.formed + 1 := hq
    have hle' : s.formed + 1 ≤ q + c.ringRounds := hle
    rcases Nat.lt_succ_iff_lt_or_eq.mp hq with hlt | rfl
    · have hqR : ∀ R ∈ s.shotRounds, q < R := fun R hR => hlt.trans (hknown.lt R hR)
      exact (hring.round q hlt (by omega)).of_sameEntry (hkeeps.entry q hlt hle) rfl hqR
    · exact holdsRound_formNext hring hstaged hcut hknown
  · show s.rowsFormed + (c.kindOf s.shotRounds s.formed).1 = _
    rw [hring.rowsFormed]
    rfl

/-! ## `form_known_rounds` -/

/-- Only the ring and what counts its rounds may differ. -/
structure SameInput (s s' : IngestState) : Prop where
  staged : s'.staged = s.staged
  stagedWidth : s'.stagedWidth = s.stagedWidth
  pools : s'.pools = s.pools
  out : s'.out = s.out
  finalInstances : s'.finalInstances = s.finalInstances
  roundsCut : s'.roundsCut = s.roundsCut
  cutBytes : s'.cutBytes = s.cutBytes
  partialRound : s'.partialRound = s.partialRound
  shotRounds : s'.shotRounds = s.shotRounds
  nextIndex : s'.nextIndex = s.nextIndex
  indexEnd : s'.indexEnd = s.indexEnd
  failed : s'.failed = s.failed

theorem SameInput.refl (s : IngestState) : SameInput s s := by constructor <;> rfl

theorem SameInput.trans {s s' s'' : IngestState} (h : SameInput s s') (h' : SameInput s' s'') :
    SameInput s s'' := by
  constructor
  · exact h'.staged.trans h.staged
  · exact h'.stagedWidth.trans h.stagedWidth
  · exact h'.pools.trans h.pools
  · exact h'.out.trans h.out
  · exact h'.finalInstances.trans h.finalInstances
  · exact h'.roundsCut.trans h.roundsCut
  · exact h'.cutBytes.trans h.cutBytes
  · exact h'.partialRound.trans h.partialRound
  · exact h'.shotRounds.trans h.shotRounds
  · exact h'.nextIndex.trans h.nextIndex
  · exact h'.indexEnd.trans h.indexEnd
  · exact h'.failed.trans h.failed

theorem sameInput_formNext : SameInput s (c.formNext s) := by constructor <;> rfl

theorem Staged.of_sameInput {s s' : IngestState} (h : c.Staged bytes s) (hs : SameInput s s')
    (hle : s.formed ≤ s'.formed) : c.Staged bytes s' := by
  refine ⟨fun q hq hcut => ?_, fun q i hq hcut hi => ?_, fun i hi => ?_⟩
  · rw [hs.roundsCut] at hcut
    rw [hs.stagedWidth, hs.shotRounds]
    exact h.width q (by omega) hcut
  · rw [hs.roundsCut] at hcut
    rw [hs.shotRounds] at hi
    rw [stagedAt, hs.staged]
    exact h.round q i (by omega) hcut hi
  · rw [hs.partialRound] at hi
    rw [stagedAt, hs.staged, hs.roundsCut]
    exact h.cutting i hi

/-- When a round is formed: its phase is known. -/
def FormsNext (c : IngestCore) (least : Nat) (s : IngestState) : Prop :=
  s.shotRounds.isSome ∨ s.formed < c.prefixRounds ∨ s.formed + c.suffixRounds < least

/-- What forming the rounds up to some bound does. -/
structure FormsTo (c : IngestCore) (bytes : Nat → UInt8) (least : Nat) (s s' : IngestState) :
    Prop where
  same : SameInput s s'
  keeps : c.Keeps s s'
  ring : c.RingHolds bytes s'
  staged : c.Staged bytes s'
  formed_le : s'.formed ≤ max s.formed s.roundsCut
  upTo : s'.formed = s.roundsCut ∨ ¬ c.FormsNext least s'
  known : s'.formed = s.formed ∨ s.shotRounds.isSome ∨ s'.formed ≤ c.prefixRounds ∨
    s'.formed + c.suffixRounds ≤ least

theorem formLoop_spec (least n : Nat) {s : IngestState} (hn : s.formed + n = s.roundsCut)
    (hring : c.RingHolds bytes s) (hstaged : c.Staged bytes s)
    (hknown : ∀ q, s.formed ≤ q → q < s.roundsCut → c.KnownRound s.shotRounds q) :
    FormsTo c bytes least s (c.formLoop least n s) := by
  induction n generalizing s with
  | zero =>
    refine ⟨.refl s, .refl s, hring, hstaged, le_max_left _ _, .inl ?_, .inl rfl⟩
    exact hn
  | succ n ih =>
    unfold formLoop
    split
    · next hforms =>
      have hk := hknown s.formed (le_refl _) (by omega)
      have hkeeps := keeps_formNext (c := c) hk.lt
      have hsame := sameInput_formNext (c := c) (s := s)
      have h := ih (s := c.formNext s) (by show s.formed + 1 + n = s.roundsCut; omega)
        (ringHolds_formNext hring hstaged (by omega) hk)
        (hstaged.of_sameInput hsame hkeeps.formed_le)
        (fun q hq hcut => hknown q (le_trans (Nat.le_succ _) hq) hcut)
      have hle : s.formed + 1 ≤ s.roundsCut := by omega
      refine ⟨hsame.trans h.same, hkeeps.trans h.keeps, h.ring, h.staged, ?_, h.upTo, .inr ?_⟩
      · have h1 : (c.formLoop least n (c.formNext s)).formed ≤ max (s.formed + 1) s.roundsCut :=
          h.formed_le
        have h2 : (c.formLoop least n (c.formNext s)).formed ≤ max s.formed s.roundsCut := by omega
        exact h2
      · rcases h.known with h' | h' | h' | h'
        · have heq : (c.formLoop least n (c.formNext s)).formed = s.formed + 1 := h'
          show _ ∨ (c.formLoop least n (c.formNext s)).formed ≤ _ ∨
            (c.formLoop least n (c.formNext s)).formed + _ ≤ _
          rw [heq]
          rcases hforms with hf | hf | hf
          · exact .inl hf
          · exact .inr (.inl hf)
          · exact .inr (.inr (by omega))
        · exact .inl h'
        · exact .inr (.inl h')
        · exact .inr (.inr h')
    · next hforms =>
      exact ⟨.refl s, .refl s, hring, hstaged, le_max_left _ _, .inr hforms, .inl rfl⟩

theorem formKnownRounds_spec {s : IngestState} (hle : s.formed ≤ s.roundsCut)
    (hring : c.RingHolds bytes s) (hstaged : c.Staged bytes s)
    (hknown : ∀ q, s.formed ≤ q → q < s.roundsCut → c.KnownRound s.shotRounds q) :
    FormsTo c bytes (c.leastShotRounds s) s (c.formKnownRounds s) :=
  formLoop_spec _ _ (by omega) hring hstaged hknown

end IngestCore

end CudaqQec
