import CudaqQec.Ingest.Atomic

/-!
# Whole shots

What a core that is given a stream of measurements holds after each of its calls, up to the record that
ends the shot. Before FINAL that is the invariant of `cut`; the FINAL record forms all rounds that are
left, whether the readout round begins in it or in rounds already cut.

* `Cutting.cutLoop`: a record keeps the invariant.
* `InShot.call`: so does every call.
* `ShotStates`: the states of a shot.
* `ShotStates.detectors_eq`, `ShotStates.exists_detectors`: each round's detectors are those of the
  stream whenever they are read, and are there to be read after some call.
-/

namespace CudaqQec

open Checked Slots

namespace IngestCore

variable {c : IngestCore} {bytes : Nat → UInt8} {s : IngestState}

/-! ## `cut` -/

theorem Cuts.trans {m n : Nat} {s' s'' : IngestState} (h : c.Cuts bytes m s s')
    (h' : c.Cuts bytes n s' s'') : c.Cuts bytes (m + n) s s'' := by
  refine ⟨h'.cutting, h.output.trans h'.output, h.keeps.trans h'.keeps, ?_⟩
  rw [h'.received, h.received, Nat.add_assoc]

theorem Cutting.formKnownRounds (h : c.Cutting bytes s) :
    c.Cuts bytes 0 s (c.formKnownRounds s) := by
  obtain ⟨hcutting, hsame, hkeeps⟩ := h.toCutTo.formKnownRounds
  refine ⟨hcutting, hsame.output, hkeeps, ?_⟩
  rw [IngestState.received, hsame.cutBytes, hsame.partialRound]
  rfl

theorem MayCut.rest {m n : Nat} {s' : IngestState} (h : c.MayCut s (m + n))
    (hcut : c.Cuts bytes m s s') : c.MayCut s' n := by
  unfold MayCut at h ⊢
  rw [hcut.output.shotRounds, hcut.received]
  cases hshot : s.shotRounds with
  | none =>
    rw [hshot] at h
    intro hrep
    have := h hrep
    omega
  | some R =>
    rw [hshot] at h
    change s.received + (m + n) ≤ _ at h
    change s.received + m + n ≤ _
    omega

/-- Where the readout round is being cut, no more than it holds may come. -/
theorem MayCut.le_lastWidth {n : Nat} (h : c.MayCut s n)
    (hcut : s.cutBytes = c.forwardOffset s.roundsCut) (hat : c.atReadout s = true) :
    s.partialRound + n ≤ c.lastWidth := by
  obtain ⟨hrep, hround, hnone⟩ : c.repeats = false ∧ s.roundsCut + 1 = c.prefixRounds ∧
      s.shotRounds = none := by simpa [atReadout] using hat
  have hfixed := (fixedMeasurements_eq hrep).1
  unfold MayCut at h
  rw [hnone] at h
  have hle := h hrep
  rw [hfixed, ← hround, Nat.add_sub_cancel, IngestState.received, hcut] at hle
  omega

/-- A record, or what is left of it, keeps the invariant. -/
theorem Cutting.cutLoop (fuel : Nat) {data : List UInt8} (h : c.Cutting bytes s)
    (hdata : Carries bytes s.received data) (hmay : c.MayCut s data.length)
    (hfuel : data.length ≤ fuel) : c.Cuts bytes data.length s (c.cutLoop fuel s data).1 := by
  induction fuel generalizing s data with
  | zero =>
    obtain rfl : data = [] := List.eq_nil_of_length_eq_zero (by omega)
    exact h.formKnownRounds
  | succ fuel ih =>
    unfold IngestCore.cutLoop
    split
    · next hnil =>
      subst hnil
      exact h.formKnownRounds
    next hne =>
    have hpos : 0 < data.length := List.length_pos_of_ne_nil hne
    set take := min data.length (c.cutWidth s - s.partialRound) with htake
    have hlen : (data.take take).length = take := by
      rw [List.length_take]
      omega
    have hsplit : take + (data.drop take).length = data.length := by
      rw [List.length_drop]
      omega
    -- The round being cut is not full: nothing comes after a full readout round.
    have hroom : s.partialRound < c.cutWidth s := by
      rcases h.cutting with hlt | ⟨hat, hfull⟩
      · exact hlt
      · have := hmay.le_lastWidth h.cutBytes hat
        omega
    have hfirst : Carries bytes s.received (data.take take) := hdata.take take
    have hrest : Carries bytes (s.received + take) (data.drop take) := hdata.drop take
    have hmay' : c.MayCut s (take + (data.drop take).length) := hsplit.symm ▸ hmay
    simp only
    split
    · next hpartial =>
      have hcut := h.stage hfirst (.inl (by change s.partialRound + _ < _ at hpartial; exact hpartial))
      rw [hlen] at hcut
      have hnext := ih hcut.cutting (hcut.received ▸ hrest) (hmay'.rest hcut)
        (by rw [List.length_drop]; omega)
      exact hsplit ▸ hcut.trans hnext
    next hfull =>
    have hwidth : s.partialRound + (data.take take).length = c.cutWidth s := by
      change ¬ s.partialRound + (data.take take).length < c.cutWidth s at hfull
      rw [hlen] at hfull ⊢
      omega
    split
    · next hat =>
      have hlast : s.partialRound + (data.take take).length = c.lastWidth := by
        rw [hwidth]
        exact if_pos hat
      have hcut := h.stage hfirst (.inr ⟨hat, hlast⟩)
      have hdone : data.drop take = [] := by
        have := hmay.le_lastWidth h.cutBytes hat
        apply List.eq_nil_of_length_eq_zero
        omega
      have hall : (data.take take).length = data.length := by
        have : (data.drop take).length = 0 := by rw [hdone]; rfl
        omega
      rw [if_pos hdone]
      exact hall ▸ hcut
    · next hat =>
      have hmay₁ : c.MayCut s (data.take take).length := by
        rw [hlen]
        unfold MayCut at hmay ⊢
        cases hshot : s.shotRounds with
        | none =>
          rw [hshot] at hmay
          intro hrep
          have := hmay hrep
          omega
        | some R =>
          rw [hshot] at hmay
          change s.received + data.length ≤ _ at hmay
          change s.received + take ≤ _
          omega
      have hcut := h.complete hfirst (Bool.eq_false_of_not_eq_true hat) hwidth hmay₁
      rw [hlen] at hcut
      have hnext := ih hcut.cutting (hcut.received ▸ hrest) (hmay'.rest hcut)
        (by rw [List.length_drop]; omega)
      exact hsplit ▸ hcut.trans hnext

theorem Cutting.cut {data : List UInt8} (h : c.Cutting bytes s) (hdata : Carries bytes s.received data)
    (hmay : c.MayCut s data.length) : c.Cuts bytes data.length s (c.cut s data).1 :=
  h.cutLoop _ hdata hmay (le_refl _)

/-! ## Where the shot ends -/

theorem walkForward_spec {readoutStart fuel r : Nat} {out : Nat × Nat}
    (h : c.walkForward readoutStart fuel r (c.forwardOffset r) = .ok out) :
    out.2 = c.forwardOffset out.1 := by
  induction fuel generalizing r with
  | zero =>
    cases h
    rfl
  | succ fuel ih =>
    unfold walkForward at h
    split at h
    · cases h
      rfl
    split at h
    · cases h
    split at h
    · cases h
    · exact ih h

theorem walkDown_spec (readoutStart r : Nat) :
    (c.walkDown readoutStart r (c.forwardOffset r)).2 =
      c.forwardOffset (c.walkDown readoutStart r (c.forwardOffset r)).1 := by
  induction r with
  | zero => rfl
  | succ r ih =>
    unfold walkDown
    split
    · have hback : c.forwardOffset (r + 1) - c.forwardWidth r = c.forwardOffset r := by
        rw [forwardOffset_succ, Nat.add_sub_cancel]
      rw [hback]
      exact ih
    · rfl

/-- The readout round that a FINAL record is given starts where all measurements but its own end. -/
theorem finalRound_eq_ok {len r : Nat} (hcut : s.cutBytes = c.forwardOffset s.roundsCut)
    (h : c.finalRound s len = .ok r) :
    c.t.Admits (r + 1) ∧ s.received + len = c.forwardOffset r + c.lastWidth := by
  simp only [finalRound, bind_eq_ok, throwIf_eq_ok] at h
  obtain ⟨_, hlast, forward, hforward, _, hat, _, hrounds, _, -, hr⟩ := h
  rw [hcut] at hforward
  have hstart := walkForward_spec hforward
  have hdown := walkDown_spec (c := c) (s.cutBytes + s.partialRound + len - c.lastWidth) forward.1
  rw [← hstart] at hdown
  obtain rfl : (c.walkDown (s.cutBytes + s.partialRound + len - c.lastWidth) forward.1
    forward.2).1 = r := Except.ok.inj hr
  refine ⟨?_, ?_⟩
  · cases hrep : c.repeats with
    | true =>
      rw [if_pos hrep] at hrounds
      exact c.context.admits_of_le hrep (not_lt.mp hrounds)
    | false =>
      rw [if_neg (by simp [hrep]), ne_eq, not_not] at hrounds
      exact ⟨hrounds.ge, fun _ => hrounds⟩
  · rw [ne_eq, not_not, hcut] at hat
    rw [hcut] at hlast hdown ⊢
    unfold IngestState.received
    omega

/-! ## The length becomes known -/

theorem rowsBefore_congr {shot shot' : Option Nat} {n : Nat}
    (h : ∀ q < n, c.kindOf shot q = c.kindOf shot' q) : c.rowsBefore shot n = c.rowsBefore shot' n := by
  induction n with
  | zero => rfl
  | succ n ih =>
    rw [rowsBefore, rowsBefore, ih fun q hq => h q (by omega), h n (Nat.lt_succ_self n)]

theorem roundRows_congr {shot shot' : Option Nat} {r : Nat} (h : c.kindOf shot r = c.kindOf shot' r) :
    c.roundRows shot bytes r = c.roundRows shot' bytes r := by
  unfold roundRows
  rw [h]

/-- A round that was formed as bulk is bulk in every shot that may follow. -/
theorem CutTo.kindOf_formed (h : c.CutTo bytes s) (hnone : s.shotRounds = none) {R : Nat}
    (hR : c.t.Admits R) (hle : s.received ≤ c.forwardOffset (R - 1) + c.lastWidth) :
    ∀ q < s.formed, c.kindOf none q = c.kindOf (some R) q := by
  intro q hq
  apply c.kindOf_none
  rcases h.safe hnone R hR hle with hpre | hsfx
  · exact .inl (hq.trans_le hpre)
  · exact .inr (by omega)

/-- What the ring holds of rounds that were formed before the length is known. -/
theorem RingHolds.of_shot (h : c.RingHolds bytes s) (hnone : s.shotRounds = none) {R : Nat}
    (hkind : ∀ q < s.formed, c.kindOf none q = c.kindOf (some R) q) :
    c.RingHolds bytes { s with shotRounds := some R } := by
  refine ⟨fun q hq hle => ?_, ?_⟩
  · have hq' : q < s.formed := hq
    have hround := h.round q hq hle
    have hk := hkind q hq'
    have hbefore := rowsBefore_congr fun q' (hlt : q' < q) => hkind q' (hlt.trans hq')
    refine ⟨hround.round, ?_, ?_, ?_⟩
    · change _ = (c.kindOf (some R) q).1
      rw [← hk, ← hnone]
      exact hround.rows
    · change _ = c.rowsBefore (some R) q
      rw [← hbefore, ← hnone]
      exact hround.firstRow
    · change read _ _ (c.kindOf (some R) q).1 = c.roundRows (some R) bytes q
      rw [← hk, ← roundRows_congr hk, ← hnone]
      exact hround.detectors
  · change s.rowsFormed = c.rowsBefore (some R) s.formed
    rw [← rowsBefore_congr hkind, ← hnone]
    exact h.rowsFormed

theorem Staged.of_shot (h : c.Staged bytes s) (hnone : s.shotRounds = none) {R : Nat}
    (hlt : s.roundsCut < R) : c.Staged bytes { s with shotRounds := some R } := by
  have hwidth : ∀ q < s.roundsCut, c.roundWidth (some R) q = c.roundWidth s.shotRounds q := by
    intro q hq
    have hne : some R ≠ some (q + 1) := by
      intro heq
      have := Option.some.inj heq
      omega
    rw [roundWidth, roundWidth, hnone, if_neg hne, if_neg (Option.some_ne_none _).symm]
  refine ⟨fun q hq hcut => ?_, fun q i hq hcut hi => ?_, h.cutting⟩
  · change _ = c.roundWidth (some R) q
    rw [hwidth q hcut]
    exact h.width q hq hcut
  · change i < c.roundWidth (some R) q at hi
    rw [hwidth q hcut] at hi
    exact h.round q i hq hcut hi

/-- All rounds of a shot are formed. -/
structure Finished (c : IngestCore) (bytes : Nat → UInt8) (R : Nat) (s : IngestState) : Prop where
  shot : s.shotRounds = some R
  admits : c.t.Admits R
  formed : s.formed = R
  ring : c.RingHolds bytes s

/-- With its readout round complete, the rest of the shot is formed. -/
theorem finished_formKnownRounds {R : Nat} (hshot : s.shotRounds = some R) (hR : c.t.Admits R)
    (hcut : s.roundsCut = R) (hformed : s.formed ≤ R) (hstaged : c.Staged bytes s)
    (hring : c.RingHolds bytes s) : c.Finished bytes R (c.formKnownRounds s) := by
  have hspec := formKnownRounds_spec (hcut.symm ▸ hformed) hring hstaged fun q _ hq => by
    rw [hshot]
    exact ⟨hR, hcut ▸ hq⟩
  have hshot' : (c.formKnownRounds s).shotRounds = some R := hspec.same.shotRounds.trans hshot
  refine ⟨hshot', hR, ?_, hspec.ring⟩
  rcases hspec.upTo with hdone | hmore
  · exact hdone.trans hcut
  · exact absurd (.inl (by rw [hshot']; rfl)) hmore

/-! ## The readout round in the record -/

/-- The round being cut is the readout round, and what is left of the record completes it. -/
theorem Cutting.completeReadout (h : c.Cutting bytes s) {R : Nat} {data : List UInt8}
    (hshot : s.shotRounds = none ∨ s.shotRounds = some R) (hR : c.t.Admits R)
    (hcut : s.roundsCut + 1 = R)
    (hkind : s.shotRounds = none → ∀ q < s.formed, c.kindOf none q = c.kindOf (some R) q)
    (hdata : Carries bytes s.received data) (hfull : s.partialRound + data.length = c.lastWidth) :
    c.Finished bytes R (c.completeRound
      { s with
        shotRounds := some R
        staged := write s.staged (s.roundsCut % c.stagedSlots * c.maxWidth + s.partialRound) data }
      c.lastWidth) := by
  have hstaged : c.Staged bytes { c.stage s data with shotRounds := some R } := by
    have hnone := stage_cutting h hdata (hfull ▸ c.lastWidth_le_maxWidth)
    rcases hshot with hshot | hshot
    · exact hnone.of_shot hshot (by change s.roundsCut < R; omega)
    · exact ⟨hshot ▸ hnone.width, hshot ▸ hnone.round, hnone.cutting⟩
  have hring : c.RingHolds bytes { s with shotRounds := some R } := by
    rcases hshot with hshot | hshot
    · exact h.ring.of_shot hshot (hkind hshot)
    · exact h.ring.of_ring_eq rfl rfl rfl rfl rfl rfl hshot.symm
  have hwidth : c.lastWidth = c.roundWidth (some R) s.roundsCut := (if_pos (by rw [hcut])).symm
  have hle : s.formed ≤ R := h.formed_le.trans (by omega)
  have hcomplete := completed_staged hstaged (fun q hq hlt => h.slot_ne hq hlt) hfull hwidth
  rw [completeRound_eq]
  refine finished_formKnownRounds rfl hR hcut ?_ ?_ ?_
  · exact hle
  · exact hcomplete
  · exact hring.of_ring_eq rfl rfl rfl rfl rfl rfl rfl

/-- Where `cut` stops before the readout round starts, the round being cut is the readout round. -/
theorem Cutting.at_readout (h : c.Cutting bytes s) {r : Nat} (hshot : s.shotRounds = some (r + 1))
    (hrec : s.received = c.forwardOffset r) : s.roundsCut = r ∧ s.partialRound = 0 := by
  have hround := h.round
  rw [hshot] at hround
  have hat : c.atReadout s = false := by simp [atReadout, hshot]
  have hcutting := h.cutting
  rw [hat, cutWidth, hat] at hcutting
  simp only [Bool.false_eq_true, if_false, false_and, or_false] at hcutting
  rw [IngestState.received, h.cutBytes] at hrec
  have hle : s.roundsCut ≤ r := Nat.le_of_lt_succ hround.2
  rcases Nat.lt_or_eq_of_le hle with hlt | rfl
  · have hnext := c.forwardOffset_mono hlt
    rw [forwardOffset_succ] at hnext
    omega
  · exact ⟨rfl, by omega⟩

theorem Cutting.finishForward (h : c.Cutting bytes s) (hnone : s.shotRounds = none) {r : Nat}
    {data : List UInt8} (hdata : Carries bytes s.received data) (hR : c.t.Admits (r + 1))
    (htotal : s.received + data.length = c.forwardOffset r + c.lastWidth) (hr : s.roundsCut ≤ r) :
    c.Finished bytes (r + 1)
      (c.finishForward { s with shotRounds := some (r + 1) } r data) := by
  have hkind := h.toCutTo.kindOf_formed hnone hR (by rw [Nat.add_sub_cancel]; omega)
  have hcut := h.cutBytes
  unfold IngestCore.finishForward
  rcases Nat.lt_or_eq_of_le hr with hlt | rfl
  swap
  · -- The readout round is the one being cut.
    simp only [lt_irrefl, if_false, List.drop_zero]
    apply h.completeReadout (.inl hnone) hR rfl (fun _ => hkind) hdata
    unfold IngestState.received at htotal
    omega
  simp only [hlt, if_true]
  set head := s.cutBytes + s.partialRound + data.length - c.lastWidth - s.cutBytes - s.partialRound
    with hhead
  -- It starts after the rounds that the record completes first.
  have hstart : c.forwardOffset (s.roundsCut + 1) ≤ c.forwardOffset r := c.forwardOffset_mono hlt
  have hat : c.atReadout s = false := by
    simp only [atReadout, decide_eq_false_iff_not, not_and]
    intro hrep heq
    have := (c.fixed_eq hR hrep).1
    omega
  have hpartial : s.partialRound < c.forwardWidth s.roundsCut := by
    have hcutting := h.cutting
    rw [hat, cutWidth, hat] at hcutting
    simpa using hcutting
  have hrec : s.received + head = c.forwardOffset r ∧ head + c.lastWidth = data.length := by
    rw [forwardOffset_succ] at hstart
    unfold IngestState.received at htotal ⊢
    omega
  have hlen : (data.take head).length = head := by
    rw [List.length_take]
    omega
  have hcutting : c.Cutting bytes { s with shotRounds := some (r + 1) } := by
    refine ⟨⟨h.cutBytes, ⟨hR, Nat.lt_succ_of_lt hlt⟩, .inl ?_, h.formed_le, fun hn => ?_,
      h.staged.of_shot hnone (Nat.lt_succ_of_lt hlt), h.ring.of_shot hnone hkind⟩, h.lag⟩
    · have hat' : c.atReadout { s with shotRounds := some (r + 1) } = false := by simp [atReadout]
      rw [cutWidth, hat']
      exact hpartial
    · cases hn
  have hcuts := hcutting.cut (hdata.take head) (by
    change s.received + (data.take head).length ≤ c.forwardOffset r
    omega)
  set s' := (c.cut { s with shotRounds := some (r + 1) } (data.take head)).1
  have hshot' : s'.shotRounds = some (r + 1) := hcuts.output.shotRounds
  have hrec' : s'.received = c.forwardOffset r := by
    have hreceived : s'.received = s.received + (data.take head).length := hcuts.received
    omega
  obtain ⟨hround, hzero⟩ := hcuts.cutting.at_readout hshot' hrec'
  have hrest : Carries bytes s'.received (data.drop head) := by
    rw [hrec', ← hrec.1]
    exact hdata.drop head
  have hfinished := hcuts.cutting.completeReadout (.inr hshot') hR (by omega)
    (fun hn => absurd (hshot'.symm.trans hn) (Option.some_ne_none _)) hrest (by
      rw [List.length_drop]
      omega)
  have hslot : r % c.stagedSlots = s'.roundsCut % c.stagedSlots := by rw [hround]
  rw [← hshot'] at hfinished
  rw [hslot]
  exact hfinished

/-! ## The readout round in rounds already cut -/

/-- Memory in which the first `n` entries of a slot are those of the stream from `base` on. -/
structure Filled (c : IngestCore) (bytes : Nat → UInt8) (mem : Nat → UInt8) (slot base n : Nat)
    (mem' : Nat → UInt8) : Prop where
  entries : ∀ i < n, mem' (slot * c.maxWidth + i) = bytes (base + i)
  other : ∀ slot' ≠ slot, ∀ i < c.maxWidth,
    mem' (slot' * c.maxWidth + i) = mem (slot' * c.maxWidth + i)

theorem Filled.write {mem mem' : Nat → UInt8} {slot base n : Nat} {xs : List UInt8}
    (h : c.Filled bytes mem slot base n mem') (hxs : Carries bytes (base + n) xs)
    (hfit : n + xs.length ≤ c.maxWidth) :
    c.Filled bytes mem slot base (n + xs.length) (write mem' (slot * c.maxWidth + n) xs) := by
  refine ⟨fun i hi => ?_, fun slot' hne i hi => ?_⟩
  · rcases Nat.lt_or_ge i n with hlt | hge
    · rw [write_slot_before hlt, h.entries i hlt]
    · obtain ⟨j, rfl⟩ := Nat.exists_eq_add_of_le hge
      rw [write_slot, hxs j (by omega), Option.getD_some, Nat.add_assoc]
  · rw [write_other_slot hfit hi hne, h.other slot' hne i hi]

theorem carries_read {mem : Nat → UInt8} {a b n : Nat} (h : ∀ i < n, mem (a + i) = bytes (b + i)) :
    Carries bytes b (read mem a n) := by
  intro i hi
  rw [length_read] at hi
  rw [getElem?_read hi, h i hi]

/-- The rounds after the readout round join it. -/
theorem Filled.joinRounds {mem : Nat → UInt8} {slot base : Nat} (n : Nat) :
    ∀ {q filled : Nat} {mem' : Nat → UInt8}, c.Filled bytes mem slot base filled mem' →
      base + filled = c.forwardOffset q → c.forwardOffset (q + n) ≤ base + c.maxWidth →
      (∀ q', q ≤ q' → q' < q + n → q' % c.stagedSlots ≠ slot ∧
        ∀ i < c.forwardWidth q', mem (q' % c.stagedSlots * c.maxWidth + i) =
          bytes (c.forwardOffset q' + i)) →
      c.Filled bytes mem slot base (c.joinRounds slot n q (mem', filled)).2
          (c.joinRounds slot n q (mem', filled)).1 ∧
        base + (c.joinRounds slot n q (mem', filled)).2 = c.forwardOffset (q + n) := by
  induction n with
  | zero =>
    intro q filled mem' h hbase _ _
    exact ⟨h, hbase⟩
  | succ n ih =>
    intro q filled mem' h hbase hfit hrounds
    obtain ⟨hslot, hround⟩ := hrounds q (le_refl q) (by omega)
    have hmono := c.forwardOffset_mono (show q + 1 ≤ q + (n + 1) by omega)
    rw [forwardOffset_succ] at hmono
    have hlen : (read mem' (q % c.stagedSlots * c.maxWidth) (c.forwardWidth q)).length =
        c.forwardWidth q := length_read _ _ _
    have hread : Carries bytes (base + filled)
        (read mem' (q % c.stagedSlots * c.maxWidth) (c.forwardWidth q)) := by
      rw [hbase]
      apply carries_read
      intro i hi
      rw [h.other _ hslot i (hi.trans_le (c.forwardWidth_le_maxWidth q)), hround i hi]
    have hnext := h.write hread (by rw [hlen]; omega)
    rw [hlen] at hnext
    have hbase' : base + (filled + c.forwardWidth q) = c.forwardOffset (q + 1) := by
      rw [forwardOffset_succ]
      omega
    have hsucc : q + 1 + n = q + (n + 1) := by omega
    have hall := ih hnext hbase' (hsucc.symm ▸ hfit) fun q' hq hlt =>
      hrounds q' (by omega) (by omega)
    rw [hsucc] at hall
    exact hall

theorem Cutting.finishBack (h : c.Cutting bytes s) (hnone : s.shotRounds = none) {r : Nat}
    {data : List UInt8} (hdata : Carries bytes s.received data) (hR : c.t.Admits (r + 1))
    (htotal : s.received + data.length = c.forwardOffset r + c.lastWidth) (hr : r < s.roundsCut)
    (hformed : s.formed ≤ r) :
    c.Finished bytes (r + 1) (c.finishBack { s with shotRounds := some (r + 1) } r data) := by
  have hkind := h.toCutTo.kindOf_formed hnone hR (by rw [Nat.add_sub_cancel]; omega)
  have hcut := h.cutBytes
  have hlag := h.lag
  have hmax := c.lastWidth_le_maxWidth
  have hnear : ∀ {a b : Nat}, s.formed ≤ a + 1 → a < b → b ≤ s.roundsCut →
      a % c.stagedSlots ≠ b % c.stagedSlots := by
    intro a b ha hab hb
    apply mod_ne_of_near hab
    rw [c.stagedSlots_eq]
    omega
  have hwidth : ∀ q < s.roundsCut, c.roundWidth s.shotRounds q = c.forwardWidth q :=
    fun q hq => h.round.roundWidth hq
  set slot := r % c.stagedSlots with hslot
  -- The readout round's own part, then the rounds after it, the round being cut and the record.
  have hown : c.Filled bytes s.staged slot (c.forwardOffset r) (c.forwardWidth r) s.staged :=
    ⟨fun i hi => h.staged.round r i (by omega) hr (by rw [hwidth r hr]; exact hi), fun _ _ _ _ => rfl⟩
  have hle : c.forwardOffset s.roundsCut ≤ c.forwardOffset r + c.maxWidth := by
    unfold IngestState.received at htotal
    omega
  have hjoin := hown.joinRounds (s.roundsCut - (r + 1)) (q := r + 1) (c.forwardOffset_succ r).symm
    (by rw [show r + 1 + (s.roundsCut - (r + 1)) = s.roundsCut by omega]; exact hle)
    fun q hq hlt => by
      have hq' : q < s.roundsCut := by omega
      refine ⟨(hnear (by omega) (by omega : r < q) (by omega)).symm, fun i hi => ?_⟩
      exact h.staged.round q i (by omega) hq' (by rw [hwidth q hq']; exact hi)
  rw [show r + 1 + (s.roundsCut - (r + 1)) = s.roundsCut by omega] at hjoin
  obtain ⟨hjoined, hend⟩ := hjoin
  set joined := c.joinRounds slot (s.roundsCut - (r + 1)) (r + 1) (s.staged, c.forwardWidth r)
  have hcopied : Carries bytes (c.forwardOffset r + joined.2)
      (read joined.1 (s.roundsCut % c.stagedSlots * c.maxWidth) s.partialRound) := by
    rw [hend]
    apply carries_read
    intro i hi
    have hin : i < c.maxWidth := by
      unfold IngestState.received at htotal
      omega
    rw [hjoined.other _ (hnear (by omega) hr (le_refl _)).symm i hin]
    exact h.staged.cutting i hi
  have hpart := hjoined.write hcopied (by
    rw [length_read]
    unfold IngestState.received at htotal
    omega)
  rw [length_read] at hpart
  have hchunk : Carries bytes (c.forwardOffset r + (joined.2 + s.partialRound)) data := by
    rw [← Nat.add_assoc, hend, ← hcut]
    exact hdata
  have hfull := hpart.write hchunk (by
    unfold IngestState.received at htotal
    omega)
  have hlast : joined.2 + s.partialRound + data.length = c.lastWidth := by
    unfold IngestState.received at htotal
    omega
  rw [hlast, ← Nat.add_assoc] at hfull
  -- As the round being cut, the readout round is staged whole.
  unfold IngestCore.finishBack
  rw [completeRound_eq]
  refine finished_formKnownRounds rfl hR rfl (by change s.formed ≤ r + 1; omega) ?_ ?_
  swap
  · exact (h.ring.of_shot hnone hkind).of_ring_eq rfl rfl rfl rfl rfl rfl rfl
  set whole := write (write joined.1 (slot * c.maxWidth + joined.2)
    (read joined.1 (s.roundsCut % c.stagedSlots * c.maxWidth) s.partialRound))
    (slot * c.maxWidth + joined.2 + s.partialRound) data
  have hstaged : c.Staged bytes { s with
      shotRounds := some (r + 1)
      staged := whole
      roundsCut := r
      cutBytes := s.cutBytes + s.partialRound + data.length - c.lastWidth
      partialRound := c.lastWidth } := by
    have hforward : ∀ q < r, c.roundWidth (some (r + 1)) q = c.forwardWidth q := by
      intro q hq
      exact if_neg fun heq => by
        have := Option.some.inj heq
        omega
    refine ⟨fun q hq hlt => ?_, fun q i hq hlt hi => ?_, fun i hi => hfull.entries i hi⟩
    · have hlt : q < r := hlt
      change _ = c.roundWidth (some (r + 1)) q
      rw [hforward q hlt, ← hwidth q (hlt.trans hr)]
      exact h.staged.width q hq (hlt.trans hr)
    · have hlt : q < r := hlt
      change i < c.roundWidth (some (r + 1)) q at hi
      rw [hforward q hlt] at hi
      change whole _ = _
      rw [hfull.other _ (hnear hq hlt hr.le) i (hi.trans_le (c.forwardWidth_le_maxWidth q))]
      exact h.staged.round q i hq (hlt.trans hr) (by rw [hwidth q (hlt.trans hr)]; exact hi)
  have hcomplete := completed_staged hstaged (fun q hq hlt => hnear hq hlt hr.le) rfl (if_pos rfl).symm
  exact hcomplete

/-! ## The FINAL record -/

/-- Whether the readout round begins in the record, in rounds already cut or in one that was formed as
bulk, every round of the shot is formed. -/
theorem Cutting.finish (h : c.Cutting bytes s) (hnone : s.shotRounds = none) {r : Nat}
    {data : List UInt8} (hdata : Carries bytes s.received data) (hR : c.t.Admits (r + 1))
    (htotal : s.received + data.length = c.forwardOffset r + c.lastWidth) :
    c.Finished bytes (r + 1) (c.finish { s with shotRounds := some (r + 1) } r data) := by
  unfold IngestCore.finish
  split
  · next hle => exact h.finishForward hnone hdata hR htotal hle
  next hlt =>
  split
  · next hle => exact h.finishBack hnone hdata hR htotal (not_le.mp hlt) hle
  next hformed =>
  have hrec : s.received ≤ c.forwardOffset (r + 1 - 1) + c.lastWidth := by
    rw [Nat.add_sub_cancel]
    omega
  have hge : r < s.formed := not_le.mp hformed
  have hround := h.round
  rw [hnone] at hround
  refine ⟨rfl, hR, ?_, h.ring.of_shot hnone (h.toCutTo.kindOf_formed hnone hR hrec)⟩
  change s.formed = r + 1
  rcases h.safe hnone (r + 1) hR hrec with hpre | hsfx
  · -- The prefix ends before the last round, or there the shot does.
    cases hrep : c.repeats with
    | true =>
      have := c.prefix_add_suffix_lt hR hrep
      omega
    | false =>
      have := (c.fixed_eq hR hrep).1
      have := hround hrep
      have := h.formed_le
      omega
  · omega

/-! ## Room in the ring -/

theorem formed_of_hasRoom {stop : Nat} (h : c.hasRoom s stop = true) :
    stop ≤ s.formed + c.ringRounds := by
  have hle : (stop : Int) - c.firstHeldRound s ≤ c.ringRounds := of_decide_eq_true h
  have hheld : c.firstHeldRound s ≤ s.formed := foldl_min_le.1
  omega

/-- A record completes no more rounds than its measurements fill at the least width. -/
theorem Cuts.roundsCut_le {n : Nat} {s' : IngestState} (h : c.Cuts bytes n s s')
    (hcut : s.cutBytes = c.forwardOffset s.roundsCut) :
    s'.roundsCut ≤ s.roundsCut + (s.partialRound + n) / c.minForwardWidth := by
  rcases Nat.le_total s'.roundsCut s.roundsCut with hle | hle
  · exact hle.trans (Nat.le_add_right _ _)
  have hmul := c.mul_minForwardWidth_le hle fun q hq => h.cutting.round.before hq
  have hreceived := h.received
  rw [IngestState.received, h.cutting.cutBytes, IngestState.received, hcut] at hreceived
  have hdiv : s'.roundsCut - s.roundsCut ≤ (s.partialRound + n) / c.minForwardWidth := by
    rw [Nat.le_div_iff_mul_le c.one_le_minForwardWidth]
    omega
  omega

/-! ## Records and other calls -/

/-- What handing windows over and refusing records leave alone. -/
structure SameRounds (s s' : IngestState) : Prop where
  staged : s'.staged = s.staged
  stagedWidth : s'.stagedWidth = s.stagedWidth
  ring : s'.ring = s.ring
  ringRows : s'.ringRows = s.ringRows
  ringRound : s'.ringRound = s.ringRound
  ringFirstRow : s'.ringFirstRow = s.ringFirstRow
  roundsCut : s'.roundsCut = s.roundsCut
  cutBytes : s'.cutBytes = s.cutBytes
  partialRound : s'.partialRound = s.partialRound
  formed : s'.formed = s.formed
  rowsFormed : s'.rowsFormed = s.rowsFormed
  shotRounds : s'.shotRounds = s.shotRounds

theorem SameRounds.refl (s : IngestState) : SameRounds s s := by constructor <;> rfl

theorem RingHolds.of_sameRounds {s' : IngestState} (h : c.RingHolds bytes s) (hs : SameRounds s s') :
    c.RingHolds bytes s' :=
  h.of_ring_eq hs.formed hs.ring hs.ringRows hs.ringRound hs.ringFirstRow hs.rowsFormed hs.shotRounds

theorem Finished.of_sameRounds {s' : IngestState} {R : Nat} (h : c.Finished bytes R s)
    (hs : SameRounds s s') : c.Finished bytes R s' :=
  ⟨hs.shotRounds.trans h.shot, h.admits, hs.formed.trans h.formed, h.ring.of_sameRounds hs⟩

theorem Cutting.of_sameRounds {s' : IngestState} (h : c.Cutting bytes s) (hs : SameRounds s s') :
    c.Cutting bytes s' := by
  obtain ⟨hwidth, hat⟩ := cutWidth_congr (c := c) hs.roundsCut hs.shotRounds
  refine ⟨⟨?_, ?_, ?_, ?_, ?_, ⟨?_, ?_, ?_⟩, h.ring.of_sameRounds hs⟩, ?_⟩
  · rw [hs.cutBytes, hs.roundsCut]
    exact h.cutBytes
  · rw [hs.shotRounds, hs.roundsCut]
    exact h.round
  · rw [hwidth, hat, hs.partialRound]
    exact h.cutting
  · rw [hs.formed, hs.roundsCut]
    exact h.formed_le
  · rw [hs.shotRounds, IngestState.received, hs.cutBytes, hs.partialRound, hs.formed]
    exact h.safe
  · rw [hs.formed, hs.roundsCut, hs.stagedWidth, hs.shotRounds]
    exact h.staged.width
  · simp only [stagedAt, hs.formed, hs.roundsCut, hs.staged, hs.shotRounds]
    exact h.staged.round
  · simp only [stagedAt, hs.partialRound, hs.roundsCut, hs.staged]
    exact h.staged.cutting
  · rw [hs.roundsCut, hs.formed]
    exact h.lag

/-- A state of a shot whose records have brought the first `n` measurements of a stream. -/
structure InShot (c : IngestCore) (bytes : Nat → UInt8) (n : Nat) (s : IngestState) : Prop where
  opened : s.shotRounds = none → c.Cutting bytes s ∧ s.received = n
  closed : ∀ R, s.shotRounds = some R →
    c.Finished bytes R s ∧ n = c.forwardOffset (R - 1) + c.lastWidth

theorem InShot.of_sameRounds {n : Nat} {s' : IngestState} (h : c.InShot bytes n s)
    (hs : SameRounds s s') : c.InShot bytes n s' := by
  refine ⟨fun hnone => ?_, fun R hR => ?_⟩
  · obtain ⟨hcutting, hreceived⟩ := h.opened (hs.shotRounds ▸ hnone)
    refine ⟨hcutting.of_sameRounds hs, ?_⟩
    rw [IngestState.received, hs.cutBytes, hs.partialRound]
    exact hreceived
  · obtain ⟨hfinished, hn⟩ := h.closed R (hs.shotRounds ▸ hR)
    exact ⟨hfinished.of_sameRounds hs, hn⟩

theorem InShot.counted {n : Nat} (h : c.InShot bytes n s) : c.Counted s := by
  refine ⟨fun hnone => (h.opened hnone).1.cutBytes, fun hnone => ?_⟩
  have hround := (h.opened hnone).1.round
  rw [hnone] at hround
  exact hround

theorem inShot_newShot : c.InShot bytes 0 (c.newShot s) := by
  refine ⟨fun _ => ⟨⟨⟨rfl, fun hrep => ?_, .inl ?_, le_refl 0, fun _ R _ _ => .inl (Nat.zero_le _),
    ⟨?_, ?_, ?_⟩, ⟨?_, rfl⟩⟩, Nat.zero_le _⟩, rfl⟩, fun R hR => by cases hR⟩
  · exact (counted_newShot (s := s)).round rfl hrep
  · exact CutRound.one_le_cutWidth (s := c.newShot s) fun hrep =>
      (counted_newShot (s := s)).round rfl hrep
  · intro q _ hq
    exact absurd hq (Nat.not_lt_zero q)
  · intro q _ _ hq
    exact absurd hq (Nat.not_lt_zero q)
  · intro i hi
    exact absurd hi (Nat.not_lt_zero i)
  · intro q hq
    exact absurd hq (Nat.not_lt_zero q)

/-- What a record does that is taken. -/
structure Takes (c : IngestCore) (bytes : Nat → UInt8) (n : Nat) (s s' : IngestState) : Prop where
  before : s.shotRounds = none
  inShot : c.InShot bytes n s'
  formed_le : s.formed ≤ s'.formed
  room : s'.formed ≤ s.formed + c.ringRounds

theorem InShot.enqueueOpen {n : Nat} (h : c.InShot bytes n s) (hnone : s.shotRounds = none)
    {data : List UInt8} (hdata : Carries bytes n data)
    (hok : (c.enqueueOpen s data).2 = .ok .accepted) :
    c.Takes bytes (n + data.length) s (c.enqueueOpen s data).1 := by
  obtain ⟨hcutting, rfl⟩ := h.opened hnone
  unfold IngestCore.enqueueOpen at hok ⊢
  split at hok
  · cases hok
  next hcount =>
  rw [if_neg hcount]
  split at hok
  swap
  · cases hok
  next hroom =>
  rw [if_pos hroom]
  have hcuts := hcutting.cut hdata (by
    unfold MayCut
    rw [hnone]
    intro hrep
    exact not_lt.mp fun hlt => hcount ⟨hrep, hlt⟩)
  have hnone' : (c.cut s data).1.shotRounds = none := hcuts.output.shotRounds.trans hnone
  have hcut := hcuts.roundsCut_le hcutting.cutBytes
  have hstop := formed_of_hasRoom hroom
  have hformed := hcuts.cutting.formed_le
  refine ⟨hnone, ⟨fun _ => ⟨hcuts.cutting, hcuts.received⟩, fun R hR => ?_⟩, hcuts.keeps.formed_le, ?_⟩
  · rw [hnone'] at hR
    cases hR
  · omega

theorem InShot.enqueueFinal {n : Nat} (h : c.InShot bytes n s) (hnone : s.shotRounds = none)
    {data : List UInt8} (hdata : Carries bytes n data)
    (hok : (c.enqueueFinal s data).2 = .ok .accepted) :
    c.Takes bytes (n + data.length) s (c.enqueueFinal s data).1 := by
  obtain ⟨hcutting, rfl⟩ := h.opened hnone
  unfold IngestCore.enqueueFinal at hok ⊢
  cases hfinal : c.finalRound s data.length with
  | error e =>
    rw [hfinal] at hok
    cases hok
  | ok r =>
    rw [hfinal] at hok
    dsimp only at hok ⊢
    split at hok
    swap
    · cases hok
    next hroom =>
    rw [if_pos hroom]
    obtain ⟨hR, htotal⟩ := finalRound_eq_ok hcutting.cutBytes hfinal
    have hfinished := hcutting.finish hnone hdata hR htotal
    have hstop := formed_of_hasRoom hroom
    have hsafe := hcutting.safe hnone (r + 1) hR (by rw [Nat.add_sub_cancel]; omega)
    have hle : s.formed ≤ r + 1 := by
      rcases hsafe with hpre | hsfx
      · have := c.rounds_fit hR
        have hp : c.prefixRounds = c.t.prefixRounds := rfl
        omega
      · omega
    have hformed := hfinished.formed
    refine ⟨hnone, ⟨fun hn => ?_, fun R' hR' => ?_⟩, ?_, ?_⟩
    · exact absurd (hfinished.shot.symm.trans hn) (Option.some_ne_none _)
    · obtain rfl : r + 1 = R' := Option.some.inj (hfinished.shot.symm.trans hR')
      exact ⟨hfinished.of_sameRounds (by constructor <;> rfl), htotal⟩
    · exact hle.trans_eq hformed.symm
    · exact hformed.le.trans hstop

theorem InShot.enqueue {n : Nat} (h : c.InShot bytes n s) {rec : IngestRecord}
    (hdata : Carries bytes n rec.data) (hok : (c.enqueue s rec).2 = .ok .accepted) :
    c.Takes bytes (n + rec.data.length) s (c.enqueue s rec).1 := by
  unfold IngestCore.enqueue at hok ⊢
  split at hok
  · cases hok
  next hfailed =>
  rw [if_neg hfailed]
  split at hok
  · cases hok
  next hshot =>
  rw [if_neg hshot]
  have hnone : s.shotRounds = none := by simpa using hshot
  split at hok
  · cases hok
  next hlimit =>
  rw [if_neg hlimit]
  split at hok
  · cases hok
  next hnull =>
  rw [if_neg hnull]
  split at hok
  · next hfinal =>
    rw [if_pos hfinal]
    exact h.enqueueFinal hnone hdata hok
  · next hopen =>
    rw [if_neg hopen]
    exact h.enqueueOpen hnone hdata hok

theorem sameRounds_pollLoop (least fuel : Nat) : SameRounds s (c.pollLoop least fuel s).1 := by
  induction fuel generalizing s with
  | zero => exact SameRounds.refl s
  | succ fuel ih =>
    unfold pollLoop
    simp only
    split
    · exact SameRounds.refl s
    split
    · exact SameRounds.refl s
    split
    · constructor <;> rfl
    · have hnext := ih (s := { s with nextIndex := s.nextIndex + 1 })
      exact ⟨hnext.staged, hnext.stagedWidth, hnext.ring, hnext.ringRows, hnext.ringRound,
        hnext.ringFirstRow, hnext.roundsCut, hnext.cutBytes, hnext.partialRound, hnext.formed,
        hnext.rowsFormed, hnext.shotRounds⟩

/-- A call that takes no record and starts no shot leaves the rounds alone. -/
theorem Counted.sameRounds_call (h : c.Counted s) (call : IngestCall)
    (htaken : (c.call s call).2 ≠ .status (.ok .accepted))
    (hreset : (c.call s call).2 ≠ .restarted (.ok ())) : SameRounds s (c.call s call).1 := by
  cases call with
  | enqueue rec =>
    have htake := h.enqueue rec
    change IngestAnswer.status (c.enqueue s rec).2 ≠ _ at htaken
    change SameRounds s (c.enqueue s rec).1
    cases hanswer : (c.enqueue s rec).2 with
    | error e =>
      rw [(htake.thrown e hanswer).1]
      constructor <;> rfl
    | ok status =>
      cases status with
      | accepted => exact absurd (by rw [hanswer]) htaken
      | deferred =>
        rw [htake.deferred hanswer]
        exact SameRounds.refl s
  | poll =>
    change SameRounds s (c.poll s).1
    unfold poll
    split
    · exact SameRounds.refl s
    · exact sameRounds_pollLoop _ _
  | release l slot =>
    change SameRounds s (orKept s (c.release s l slot)).1
    unfold release
    split
    · constructor <;> rfl
    · exact SameRounds.refl s
  | reset =>
    change IngestAnswer.restarted (orKept s (c.reset s)).2 ≠ _ at hreset
    change SameRounds s (orKept s (c.reset s)).1
    cases hresult : c.reset s with
    | ok s' => exact absurd (by rw [hresult]; rfl) hreset
    | error e => exact SameRounds.refl s
  | _ => exact SameRounds.refl s

/-! ## The states of a shot -/

/-- The states of a shot after each of its calls, the last one first: the records that it took brought
the first `n` measurements of a stream. It may be the core's first, or follow any calls and a `reset`. -/
inductive ShotStates (c : IngestCore) (bytes : Nat → UInt8) : Nat → List IngestState → Prop
  | first : ShotStates c bytes 0 [c.initial]
  | restarted {calls : List IngestCall} {s : IngestState}
      (hreset : c.reset (c.after c.initial calls) = .ok s) : ShotStates c bytes 0 [s]
  | record {n : Nat} {s : IngestState} {earlier : List IngestState} (rec : IngestRecord)
      (h : ShotStates c bytes n (s :: earlier)) (hdata : Carries bytes n rec.data)
      (htaken : (c.enqueue s rec).2 = .ok .accepted) :
      ShotStates c bytes (n + rec.data.length) ((c.enqueue s rec).1 :: s :: earlier)
  | other {n : Nat} {s : IngestState} {earlier : List IngestState} (call : IngestCall)
      (h : ShotStates c bytes n (s :: earlier))
      (htaken : (c.call s call).2 ≠ .status (.ok .accepted))
      (hreset : (c.call s call).2 ≠ .restarted (.ok ())) :
      ShotStates c bytes n ((c.call s call).1 :: s :: earlier)

theorem reset_eq_ok {s' : IngestState} (h : c.reset s = .ok s') : s' = c.newShot s := by
  unfold reset at h
  split at h
  · cases h
  · exact (Except.ok.inj h).symm

theorem ShotStates.inShot {n : Nat} {states : List IngestState} (h : c.ShotStates bytes n states) :
    ∀ s ∈ states.head?, c.InShot bytes n s := by
  induction h with
  | first =>
    rintro s ⟨rfl⟩
    exact inShot_newShot
  | restarted hreset =>
    rintro s ⟨rfl⟩
    rw [reset_eq_ok hreset]
    exact inShot_newShot
  | record rec h hdata htaken ih =>
    rintro s ⟨rfl⟩
    exact ((ih _ rfl).enqueue hdata htaken).inShot
  | other call h htaken hreset ih =>
    rintro s ⟨rfl⟩
    have hbefore := ih _ rfl
    exact hbefore.of_sameRounds (hbefore.counted.sameRounds_call call htaken hreset)

/-! ## Reading detectors -/

theorem HoldsRound.detectors_eq {q : Nat} (h : c.HoldsRound bytes s q) (hq : q < s.formed) :
    c.detectors s q = .ok (c.roundRows s.shotRounds bytes q) := by
  have hin : ¬ ((q : Int) < 0 ∨ (s.formed : Int) ≤ q ∨
      s.ringRound ((q : Int).toNat &&& (c.ringRounds - 1)) ≠ q) := by
    rw [Int.toNat_natCast, land_ringRounds, h.round]
    omega
  unfold IngestCore.detectors
  dsimp only
  rw [if_neg hin, Int.toNat_natCast, land_ringRounds, h.rows, h.detectors]

/-- A round that is read is one that the ring has: a later round in its slot would say so. -/
theorem RingHolds.detectors_eq (h : c.RingHolds bytes s) {q : Nat} {rows : List UInt8}
    (hread : c.detectors s q = .ok rows) : rows = c.roundRows s.shotRounds bytes q := by
  unfold IngestCore.detectors at hread
  dsimp only at hread
  split at hread
  · cases hread
  next hin =>
  rw [Int.toNat_natCast, land_ringRounds, not_or, not_or, not_not] at hin
  obtain ⟨-, hlt, hround⟩ := hin
  have hq : q < s.formed := by omega
  rcases Nat.lt_or_ge (q + c.ringRounds) s.formed with hold | hnear
  · -- The slot went to a round that is whole turns of the ring further on.
    exfalso
    have hpos : 0 < c.ringRounds := by
      have hle := c.le_ringRounds
      generalize (c.recordLimit + c.maxWidth) / c.minForwardWidth = behind at hle
      omega
    obtain ⟨q', hlt', hnear', hmod⟩ : ∃ q' < s.formed, s.formed ≤ q' + c.ringRounds ∧
        q' % c.ringRounds = q % c.ringRounds := by
      have hdvd : c.ringRounds * ((s.formed - 1 - q) / c.ringRounds) ≤ s.formed - 1 - q :=
        Nat.mul_div_le _ _
      have hlast := Nat.lt_mul_div_succ (s.formed - 1 - q) hpos
      rw [Nat.mul_add, Nat.mul_one] at hlast
      refine ⟨q + c.ringRounds * ((s.formed - 1 - q) / c.ringRounds), by omega, by omega, ?_⟩
      exact Nat.add_mul_mod_self_left _ _ _
    have hround' := (h.round q' hlt' hnear').round
    rw [hmod, hround] at hround'
    omega
  · have hholds := (h.round q hq hnear).detectors_eq hq
    unfold IngestCore.detectors at hholds
    dsimp only at hholds
    rw [if_neg (by rw [Int.toNat_natCast, land_ringRounds]; omega)] at hholds
    exact Except.ok.inj (hread.symm.trans hholds)

/-- Before FINAL too, what the ring has of a shot is what it has once the length is known. -/
theorem InShot.detectors_eq {n R q : Nat} (h : c.InShot bytes n s) (hR : c.t.Admits R)
    (hn : n ≤ c.forwardOffset (R - 1) + c.lastWidth) (hshot : ∀ R' ∈ s.shotRounds, R' = R)
    {rows : List UInt8} (hread : c.detectors s q = .ok rows) :
    rows = c.roundRows (some R) bytes q := by
  cases hs : s.shotRounds with
  | none =>
    obtain ⟨hcutting, rfl⟩ := h.opened hs
    rw [hcutting.ring.detectors_eq hread, hs]
    have hq : q < s.formed := by
      unfold IngestCore.detectors at hread
      dsimp only at hread
      split at hread
      · cases hread
      · omega
    exact roundRows_congr (hcutting.toCutTo.kindOf_formed hs hR hn q hq)
  | some R' =>
    obtain rfl := hshot R' hs
    rw [(h.closed R' hs).1.ring.detectors_eq hread, hs]

/-- Whenever a round's detectors are read in a shot of `R` rounds, they are those of the stream. -/
theorem ShotStates.detectors_eq {n R : Nat} {states : List IngestState}
    (h : c.ShotStates bytes n states) (hR : c.t.Admits R)
    (hn : n ≤ c.forwardOffset (R - 1) + c.lastWidth)
    (hshot : ∀ s ∈ states.head?, ∀ R' ∈ s.shotRounds, R' = R) {q : Nat} {rows : List UInt8} :
    ∀ s ∈ states, c.detectors s q = .ok rows → rows = c.roundRows (some R) bytes q := by
  have hhead := h.inShot
  induction h with
  | first =>
    rintro s hs hread
    obtain rfl := List.mem_singleton.mp hs
    exact (hhead _ rfl).detectors_eq hR hn (hshot _ rfl) hread
  | restarted hreset =>
    rintro s hs hread
    obtain rfl := List.mem_singleton.mp hs
    exact (hhead _ rfl).detectors_eq hR hn (hshot _ rfl) hread
  | record rec h hdata htaken ih =>
    rintro s hs hread
    rcases List.mem_cons.mp hs with rfl | hs
    · exact (hhead _ rfl).detectors_eq hR hn (hshot _ rfl) hread
    · have htakes := (h.inShot _ rfl).enqueue hdata htaken
      refine ih (by omega) (fun s hs R' hR' => ?_) h.inShot s hs hread
      obtain rfl := Option.some.inj hs
      rw [htakes.before] at hR'
      cases hR'
  | other call h htaken hreset ih =>
    rintro s hs hread
    rcases List.mem_cons.mp hs with rfl | hs
    · exact (hhead _ rfl).detectors_eq hR hn (hshot _ rfl) hread
    · have hsame := (h.inShot _ rfl).counted.sameRounds_call call htaken hreset
      refine ih hn (fun s hs R' hR' => ?_) h.inShot s hs hread
      obtain rfl := Option.some.inj hs
      exact hshot _ rfl R' (hsame.shotRounds.trans hR')

/-- Every round that was formed could be read after the record that formed it. -/
theorem ShotStates.exists_detectors {n : Nat} {states : List IngestState}
    (h : c.ShotStates bytes n states) :
    ∀ s ∈ states.head?, ∀ q < s.formed, ∃ s' ∈ states, ∃ rows, c.detectors s' q = .ok rows := by
  induction h with
  | first =>
    rintro s ⟨rfl⟩ q hq
    exact absurd hq (Nat.not_lt_zero q)
  | restarted hreset =>
    rintro s ⟨rfl⟩ q hq
    rw [reset_eq_ok hreset] at hq
    exact absurd hq (Nat.not_lt_zero q)
  | @record n s earlier rec h hdata htaken ih =>
    rintro s' ⟨rfl⟩ q hq
    have htakes := (h.inShot _ rfl).enqueue hdata htaken
    rcases Nat.lt_or_ge q s.formed with hlt | hge
    · obtain ⟨s', hs', hread⟩ := ih s rfl q hlt
      exact ⟨s', List.mem_cons_of_mem _ hs', hread⟩
    · -- No round that the record forms is a ring behind the last one.
      have hnear := htakes.room
      have hholds : c.HoldsRound bytes (c.enqueue s rec).1 q := by
        cases hs : (c.enqueue s rec).1.shotRounds with
        | none => exact (htakes.inShot.opened hs).1.ring.round q hq (by omega)
        | some R => exact (htakes.inShot.closed R hs).1.ring.round q hq (by omega)
      exact ⟨_, List.mem_cons_self, _, hholds.detectors_eq hq⟩
  | @other n s earlier call h htaken hreset ih =>
    rintro s' ⟨rfl⟩ q hq
    have hsame := (h.inShot _ rfl).counted.sameRounds_call call htaken hreset
    obtain ⟨s', hs', hread⟩ := ih s rfl q (hsame.formed ▸ hq)
    exact ⟨s', List.mem_cons_of_mem _ hs', hread⟩

end IngestCore

end CudaqQec
