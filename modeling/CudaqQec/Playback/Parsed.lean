import CudaqQec.Playback.Operands
import Mathlib.Data.List.Dedup
import Mathlib.Data.List.Induction
import Mathlib.Data.List.TakeWhile
import Mathlib.Data.Nat.Digits.Defs

/-!
# Parsed schedules

`WellFormed`: a schedule says what its text says. Its lines are its events in file order, the slices of
the arenas lie apart, and an id stands for one name. `LineReads` is what one line does, `WellParsed` what
the lines so far have left, and `parse_wellParsed` the run over a text.

An id is an index held in 32 bits, of which the largest means that there is no signal: what is parsed is
well formed as long as a text names fewer signals than that.
-/

namespace CudaqQec.Playback

open Checked Arena

/-! ## What a text says -/

def writtenLines (text : List Char) : List (List (List Char)) :=
  ((Delimited.lines '\n' text).map tokenize).filter (· ≠ [])

def lineOperands (tokens : List (List Char)) : List (String × List Char) := keyed (tokens.drop 2)

def signalKeys : List String := ["signal", "after", "until"]

def lineNames (tokens : List (List Char)) : List (List Char) :=
  ((lineOperands tokens).filter (·.1 ∈ signalKeys)).map Prod.snd

def writtenNames (text : List Char) : List (List Char) := (writtenLines text).flatMap lineNames

/-! ## Well-formed texts -/

/-- An event is what its line says. -/
structure LineMeans (R : Naming) (known : List Nat) (tickNs : Nat) (sched : Schedule)
    (tokens : List (List Char)) (e : Event) : Prop where
  trigger : ∃ tok tick, tokens[0]? = some tok ∧ Writes 64 (triggerDigits tok).2 tick ∧
    e.trig = (if (triggerDigits tok).1 then .delta else .tick) ∧ e.deadlineNs = tick * tickNs ∧
    tick * tickNs < 2 ^ 64
  operation : ∃ tok, tokens[1]? = some tok ∧ operationNamed (String.ofList tok) = some e.op
  session : e.decoderId ∈ known
  uses : ∀ kv ∈ lineOperands tokens, Uses R sched e kv
  bare : ∀ tok ∈ tokens.drop 2, splitOperand tok = none → UsesBare sched e tok
  noSignal : "signal" ∉ (lineOperands tokens).map Prod.fst → e.signalId = kNoSignal
  noAfter : "after" ∉ (lineOperands tokens).map Prod.fst → e.afterSignalId = kNoSignal
  noUntil : "until" ∉ (lineOperands tokens).map Prod.fst → e.untilSignalId = kNoSignal
  bounds : e.op = .stream → 1 ≤ e.streamMaxRounds ∧ e.streamMinRounds ≤ e.streamMaxRounds ∧
    ("until" ∉ (lineOperands tokens).map Prod.fst → e.streamMinRounds = e.streamMaxRounds)

def Event.idOf (e : Event) (key : String) : Nat :=
  if key = "signal" then e.signalId else if key = "after" then e.afterSignalId else e.untilSignalId

def lineSignals (tokens : List (List Char)) (e : Event) : List (List Char × Nat) :=
  ((lineOperands tokens).filter (·.1 ∈ signalKeys)).map fun kv => (kv.2, e.idOf kv.1)

def signals (text : List Char) (sched : Schedule) : List (List Char × Nat) :=
  ((writtenLines text).zip sched.events).flatMap fun line => lineSignals line.1 line.2

def InOrder (e f : Event) : Prop := f.trig = .tick → e.trig = .tick ∧ e.deadlineNs ≤ f.deadlineNs

/-- A schedule is well formed for a text: it has one event for each line, which is what the line says,
and ids are as good as names. -/
structure WellFormed (text : List Char) (known : List Nat) (tickNs : Nat) (sched : Schedule) : Prop where
  lines : List.Forall₂ (LineMeans Identifies known tickNs sched) (writtenLines text) sched.events
  order : sched.events.Pairwise InOrder
  syndromes : (sched.events.map Event.syndromes).Pairwise Apart
  expected : (sched.events.map Event.expectedBits).Pairwise Apart
  ids : ∀ s ∈ signals text sched, ∀ s' ∈ signals text sched, s.2 = s'.2 ↔ s.1 = s'.1
  bound : ∀ s ∈ signals text sched, s.2 < sched.signalNames.length

/-! ## One line -/

inductive Triggered (clock : Clock) (tickNs : Nat) (e : Event) (tick : Nat) : Clock → Prop
  | delta : e.trig = .delta → Triggered clock tickNs e tick { clock with sawDelta := true }
  | tick : e.trig = .tick → clock.sawDelta = false → (∀ t ∈ clock.lastTick, t ≤ tick) →
      e.deadlineNs = tick * tickNs → Triggered clock tickNs e tick { clock with lastTick := some tick }

theorem readTrigger_eq_ok {tok : List Char} {tickNs : Nat} {e e' : Event} {clock clock' : Clock}
    (h : readTrigger tok tickNs e clock = .ok (e', clock')) :
    ∃ tick, Writes 64 (triggerDigits tok).2 tick ∧ tick * tickNs < 2 ^ 64 ∧
      e' = { e with
        trig := if (triggerDigits tok).1 then .delta else .tick
        deadlineNs := tick * tickNs } ∧ Triggered clock tickNs e' tick clock' := by
  have hsmall : ∀ tick : Nat, ¬ (tick ≠ 0 ∧ 2 ^ 64 ≤ tick * tickNs) → tick * tickNs < 2 ^ 64 := by
    intro tick hfits
    by_contra hover
    refine hfits ⟨?_, by omega⟩
    rintro rfl
    simp at hover
  cases hrel : (triggerDigits tok).1 with
  | true =>
    simp only [readTrigger, hrel, if_true, ok_bind, bind_eq_ok, throwIf_eq_ok] at h
    obtain ⟨-, -, tick, htick, -, hfits, h⟩ := h
    obtain ⟨rfl, rfl⟩ := Prod.mk.inj (Except.ok.inj h)
    exact ⟨tick, parseUint_eq_ok htick, hsmall tick hfits, rfl, .delta rfl⟩
  | false =>
    simp only [readTrigger, hrel, Bool.false_eq_true, if_false, bind_eq_ok, throwIf_eq_ok,
      Clock.place] at h
    obtain ⟨-, -, tick, htick, clock₁, ⟨-, hdelta, -, hlast, hclock⟩, -, hfits, h⟩ := h
    obtain rfl := Except.ok.inj hclock
    obtain ⟨rfl, rfl⟩ := Prod.mk.inj (Except.ok.inj h)
    refine ⟨tick, parseUint_eq_ok htick, hsmall tick hfits, rfl,
      .tick rfl (by simpa using hdelta) (fun t ht => ?_) rfl⟩
    rw [Option.mem_def.mp ht] at hlast
    simpa using hlast

/-- What a line does to the schedule and to the ticks so far. -/
structure LineReads (known : List Nat) (tickNs : Nat) (st : ParseState) (tokens : List (List Char))
    (e : Event) (st' : ParseState) : Prop where
  means : LineMeans Interned known tickNs st'.sched tokens e
  events : st'.sched.events = st.sched.events ++ [e]
  syndromes : st.sched.syndromeArena <+: st'.sched.syndromeArena
  expected : st.sched.expectedArena <+: st'.sched.expectedArena
  names : st.sched.signalNames <+: st'.sched.signalNames
  nodup : st.sched.signalNames.Nodup → st'.sched.signalNames.Nodup
  new : ∀ v ∈ st'.sched.signalNames, v ∈ st.sched.signalNames ∨ v ∈ lineNames tokens
  syndromeSlot : Slot st.sched.syndromeArena st'.sched.syndromeArena e.syndromes
  expectedSlot : Slot st.sched.expectedArena st'.sched.expectedArena e.expectedBits
  clock : ∃ tick, Triggered st.clock tickNs e tick st'.clock

theorem mem_lineNames {tokens : List (List Char)} {key : String} {v : List Char}
    (hkey : key ∈ signalKeys) (h : (key, v) ∈ lineOperands tokens) : v ∈ lineNames tokens :=
  List.mem_map.mpr ⟨(key, v), List.mem_filter.mpr ⟨h, by simpa using hkey⟩, rfl⟩

/-! ## The operands of every line -/

/-- What the operands that every operation takes make of a line. -/
structure CommonReads (trigger : List Char) (known : List Nat) (tickNs : Nat) (ops : Operands)
    (st : ParseState) (line : LineState) (clock : Clock) : Prop where
  plain : Plain line.e
  trigger : ∃ tick, Writes 64 (triggerDigits trigger).2 tick ∧
    line.e.trig = (if (triggerDigits trigger).1 then .delta else .tick) ∧
    line.e.deadlineNs = tick * tickNs ∧ tick * tickNs < 2 ^ 64 ∧
    Triggered st.clock tickNs line.e tick clock
  known : line.e.decoderId ∈ known
  session : ∀ v, ops.get "session" = some v → Writes 64 v line.e.decoderId
  signals : ∃ names names', SignalRead ops "signal" st.sched.signalNames line.e.signalId names ∧
    SignalRead ops "after" names line.e.afterSignalId names' ∧
    line.sched = { st.sched with signalNames := names' }
  ops : line.ops = ((ops.mark "session").mark "signal").mark "after"

theorem readCommon_reads {trigger : List Char} {known : List Nat} {tickNs : Nat} {ops : Operands}
    {st : ParseState} {line : LineState} {clock : Clock}
    (h : readCommon trigger known tickNs ops st = .ok (line, clock)) :
    CommonReads trigger known tickNs ops st line clock := by
  simp only [readCommon, readSession, bind_eq_ok, throwIf_eq_ok] at h
  obtain ⟨⟨e, clock₀⟩, htrigger, id, ⟨id', hid, -, hknown, hid'⟩, ⟨signalId, names⟩, hsignal,
    ⟨afterId, names'⟩, hafter, h⟩ := h
  obtain rfl := Except.ok.inj hid'
  obtain ⟨rfl, rfl⟩ := Prod.mk.inj (Except.ok.inj h)
  obtain ⟨tick, htick, hfits, rfl, hclock⟩ := readTrigger_eq_ok htrigger
  refine ⟨⟨rfl, rfl, rfl, rfl, rfl⟩, ⟨tick, htick, rfl, rfl, hfits, ?_⟩, not_not.mp hknown,
    (uint_eq_ok hid).1,
    ⟨names, names', readSignal_eq_ok hsignal, readSignal_eq_ok hafter, rfl⟩, rfl⟩
  cases hclock with
  | delta htrig => exact .delta htrig
  | tick htrig hdelta hlast hdeadline => exact .tick htrig hdelta hlast hdeadline

theorem parseLine_reads {known : List Nat} {tickNs : Nat} {raw : List Char} {st st' : ParseState}
    {tokens : List (List Char)} (h : parseLine known tickNs raw st tokens = .ok st')
    (hne : ∀ tok ∈ tokens, tok ≠ []) (hs : st'.sched.syndromeArena.length < 2 ^ 32)
    (he : st'.sched.expectedArena.length < 2 ^ 32) :
    ∃ e, LineReads known tickNs st tokens e st' := by
  match tokens, h with
  | trigger :: opToken :: toks, h =>
    simp only [parseLine, bind_eq_ok] at h
    obtain ⟨ops, hops, ⟨before, clock⟩, hcommon, after, hop, _, hreject, h⟩ := h
    obtain rfl := Except.ok.inj h
    have hof := Operands.create_of hops fun tok ht => hne tok (by simp [ht])
    have hread := readCommon_reads hcommon
    obtain ⟨names, names', hsignal, hafter, hsched⟩ := hread.signals
    obtain ⟨op, hname, hperf⟩ :=
      readOperation_performs hop hread.plain (hread.ops ▸ hof.bareRead) hs he
    obtain ⟨hunread, hbare⟩ := Operands.rejectUnread_eq_ok hreject
    have hsame := hperf.common
    simp only [Event.common, Prod.mk.injEq] at hsame
    obtain ⟨htrig, hdeadline, hsession, hsig, haft⟩ := hsame
    obtain ⟨tick, htick, htrigger, hns, hfits, hclock⟩ := hread.trigger
    have hgrows := hperf.grows
    have hget : ∀ key, before.ops.get key = ops.get key := fun key => by simp [hread.ops]
    rw [hsched] at hgrows
    have hbareOps : before.ops.bare = ops.bare := by simp [hread.ops]
    -- `signal` and `after` only add names, so what the operation read holds of the final schedule
    refine ⟨after.e,
      { means :=
          { trigger := ⟨trigger, tick, rfl, htick, htrig ▸ htrigger, hdeadline ▸ hns, hfits⟩
            operation := ⟨opToken, rfl, by rw [hname, hperf.op]⟩
            session := hsession ▸ hread.known
            uses := ?_
            bare := ?_
            noSignal := fun hno => hsig ▸ hsignal.absent (hof.get_eq_none.mpr hno)
            noAfter := fun hno => haft ▸ hafter.absent (hof.get_eq_none.mpr hno)
            noUntil := fun hno => hperf.noUntil ((hget _).trans (hof.get_eq_none.mpr hno))
            bounds := ?_ }
        events := by rw [hgrows.events]
        syndromes := hgrows.syndromes
        expected := hgrows.expected
        names := (hsignal.grows.trans hafter.grows).trans hgrows.names
        nodup := hgrows.nodup ∘ hafter.nodup ∘ hsignal.nodup
        new := ?_
        syndromeSlot := by simpa [hsched] using hperf.syndromes
        expectedSlot := by simpa [hsched] using hperf.expected
        clock := ?_ }⟩
    -- each operand is one of the common ones or one the operation itself has taken
    · rintro ⟨key, v⟩ hkv
      have hv := hof.get_eq_some.mpr hkv
      have huses : Uses Interned after.sched after.e (key, v) := by
        by_cases hcommonKey : key = "session" ∨ key = "signal" ∨ key = "after"
        · rcases hcommonKey with rfl | rfl | rfl
          · exact .session (hsession ▸ hread.session v hv)
          · exact .signal
              (hsig ▸ (hsignal.interned v hv).mono (hafter.grows.trans hgrows.names))
          · exact .after (haft ▸ (hafter.interned v hv).mono hgrows.names)
        · have hfresh : key ∈ ops.unread := hof.mem_unread.mpr (List.mem_map.mpr ⟨_, hkv, rfl⟩)
          refine hperf.uses key v ((hget key).trans hv) ?_ (by simp [hunread])
          simp only [hread.ops, Operands.mem_unread_mark, hfresh, true_and]
          grind
      exact huses.mono List.prefix_rfl fun _ _ h => h
    · intro tok htok hsplit
      obtain ⟨hb, hne'⟩ := hof.bare tok htok hsplit
      rw [← hb, ← hbareOps] at hne' ⊢
      exact hperf.bare hne' (hbare (hperf.sameBare ▸ hne'))
    · intro hstream
      obtain ⟨hpos, hle, hfixed⟩ := hperf.bounds hstream
      refine ⟨hpos, hle, fun hno => hfixed (hperf.noUntil ?_)⟩
      exact (hget _).trans (hof.get_eq_none.mpr hno)
    · intro v hv
      -- a new name comes from `signal`, `after` or `until`
      rcases hperf.new v hv with hv | huntil
      · rw [hsched] at hv
        rcases hafter.new v hv with hv | hv
        · rcases hsignal.new v hv with hv | hv
          · exact .inl hv
          · exact .inr (mem_lineNames (by decide) (hof.get_eq_some.mp hv))
        · exact .inr (mem_lineNames (by decide) (hof.get_eq_some.mp hv))
      · exact .inr (mem_lineNames (by decide) (hof.get_eq_some.mp ((hget _).symm.trans huntil)))
    · refine ⟨tick, ?_⟩
      cases hclock with
      | delta hdelta => exact .delta (htrig.trans hdelta)
      | tick htick hdelta hlast hd => exact .tick (htrig.trans htick) hdelta hlast (hdeadline.trans hd)

/-! ## The lines so far -/

/-- What the ticks so far say of the events so far. -/
structure Clocked (tickNs : Nat) (clock : Clock) (events : List Event) : Prop where
  order : events.Pairwise InOrder
  ticks : ∀ e ∈ events, e.trig = .tick → ∃ t ∈ clock.lastTick, e.deadlineNs ≤ t * tickNs
  deltas : ∀ e ∈ events, e.trig = .delta → clock.sawDelta = true

theorem Clocked.append {tickNs tick : Nat} {clock clock' : Clock} {events : List Event} {e : Event}
    (h : Clocked tickNs clock events) (ht : Triggered clock tickNs e tick clock') :
    Clocked tickNs clock' (events ++ [e]) := by
  cases ht with
  | delta htrig =>
    refine ⟨List.pairwise_append.mpr ⟨h.order, List.pairwise_singleton _ _, ?_⟩, ?_, fun _ _ _ => rfl⟩
    · intro f _ e' he' htick
      obtain rfl := List.mem_singleton.mp he'
      simp [htrig] at htick
    · intro f hf htick
      rcases List.mem_append.mp hf with hf | hf
      · exact h.ticks f hf htick
      · obtain rfl := List.mem_singleton.mp hf
        simp [htrig] at htick
  | tick htrig hdelta hlast hdeadline =>
    have hall : ∀ f ∈ events, f.trig = .tick := by
      intro f hf
      cases hf' : f.trig with
      | tick => rfl
      | delta => simp [h.deltas f hf hf'] at hdelta
    have hbefore : ∀ f ∈ events, f.deadlineNs ≤ e.deadlineNs := by
      intro f hf
      obtain ⟨t, ht, hle⟩ := h.ticks f hf (hall f hf)
      rw [hdeadline]
      exact hle.trans (Nat.mul_le_mul_right tickNs (hlast t ht))
    refine ⟨List.pairwise_append.mpr ⟨h.order, List.pairwise_singleton _ _, ?_⟩, ?_, ?_⟩
    · intro f hf e' he' _
      obtain rfl := List.mem_singleton.mp he'
      exact ⟨hall f hf, hbefore f hf⟩
    · intro f hf _
      refine ⟨tick, rfl, ?_⟩
      rcases List.mem_append.mp hf with hf | hf
      · exact (hbefore f hf).trans hdeadline.le
      · obtain rfl := List.mem_singleton.mp hf
        exact hdeadline.le
    · intro f hf hd
      rcases List.mem_append.mp hf with hf | hf
      · exact h.deltas f hf hd
      · obtain rfl := List.mem_singleton.mp hf
        simp [htrig] at hd

/-! ## What has been parsed -/

/-- What the lines so far have left. -/
structure WellParsed (known : List Nat) (tickNs : Nat) (lines : List (List (List Char)))
    (st : ParseState) : Prop where
  means : List.Forall₂ (LineMeans Interned known tickNs st.sched) lines st.sched.events
  clock : Clocked tickNs st.clock st.sched.events
  syndromes : Laid st.sched.syndromeArena (st.sched.events.map Event.syndromes)
  expected : Laid st.sched.expectedArena (st.sched.events.map Event.expectedBits)
  nodup : st.sched.signalNames.Nodup
  names : ∀ v ∈ st.sched.signalNames, v ∈ lines.flatMap lineNames

/-- What a line says stays said while the arenas grow, as far as names keep their ids. -/
theorem LineMeans.mono {R R' : Naming} {known : List Nat} {tickNs : Nat} {sched sched' : Schedule}
    {tokens : List (List Char)} {e : Event} (h : LineMeans R known tickNs sched tokens e)
    (hs : sched.syndromeArena <+: sched'.syndromeArena)
    (he : sched.expectedArena <+: sched'.expectedArena)
    (hR : ∀ name id, R sched.signalNames name id → R' sched'.signalNames name id) :
    LineMeans R' known tickNs sched' tokens e :=
  { h with
    uses := fun kv hkv => (h.uses kv hkv).mono hs hR
    bare := fun tok ht hsplit => ⟨(h.bare tok ht hsplit).1, (h.bare tok ht hsplit).2.mono he⟩ }

theorem WellParsed.append {known : List Nat} {tickNs : Nat} {lines : List (List (List Char))}
    {st st' : ParseState} {tokens : List (List Char)} {e : Event}
    (h : WellParsed known tickNs lines st) (hl : LineReads known tickNs st tokens e st') :
    WellParsed known tickNs (lines ++ [tokens]) st' := by
  obtain ⟨tick, hclock⟩ := hl.clock
  refine ⟨?_, ?_, ?_, ?_, hl.nodup h.nodup, fun v hv => ?_⟩
  · rw [hl.events]
    refine List.rel_append ?_ (.cons hl.means .nil)
    exact h.means.imp fun tokens e hm =>
      hm.mono hl.syndromes hl.expected fun _ _ hid => hid.mono hl.names
  · rw [hl.events]
    exact h.clock.append hclock
  · rw [hl.events, List.map_append]
    exact h.syndromes.append hl.syndromes hl.syndromeSlot
  · rw [hl.events, List.map_append]
    exact h.expected.append hl.expected hl.expectedSlot
  · rw [List.flatMap_append]
    rcases hl.new v hv with hv | hv
    · exact List.mem_append_left _ (h.names v hv)
    · exact List.mem_append_right _ (by simpa using hv)

/-- The lines of a text one after the other: a blank line changes nothing. -/
theorem foldlM_readLine {known : List Nat} {tickNs : Nat} {ls : List (List Char)} {k : Nat}
    {st st' : ParseState} (h0 : WellParsed known tickNs [] st)
    (h : (ls.zipIdx k).foldlM (readLine known tickNs) st = .ok st')
    (hs : st'.sched.syndromeArena.length < 2 ^ 32) (he : st'.sched.expectedArena.length < 2 ^ 32) :
    WellParsed known tickNs ((ls.map tokenize).filter (· ≠ [])) st' := by
  induction ls using List.reverseRecOn generalizing st' with
  | nil =>
    obtain rfl := Except.ok.inj h
    exact h0
  | append_singleton ls line ih =>
    rw [List.zipIdx_append, List.foldlM_append, bind_eq_ok] at h
    obtain ⟨st₁, hfront, h⟩ := h
    simp only [List.zipIdx_cons, List.zipIdx_nil, List.foldlM_cons, List.foldlM_nil, bind_pure,
      readLine] at h
    rw [List.map_append, List.filter_append]
    split at h
    · next hblank =>
      obtain rfl := Except.ok.inj h
      simpa [hblank] using ih hfront hs he
    · next hline =>
      have hline' : parseLine known tickNs line st₁ (tokenize line) = .ok st' := by
        cases hparse : parseLine known tickNs line st₁ (tokenize line) with
        | error e => simp [hparse, Except.mapError] at h
        | ok st₂ => simpa [hparse, Except.mapError] using h
      obtain ⟨e, hreads⟩ := parseLine_reads hline' (fun tok ht => by
        simpa using (List.mem_filter.mp ht).2) hs he
      have hfront := ih hfront (hreads.syndromes.length_le.trans_lt hs)
        (hreads.expected.length_le.trans_lt he)
      simpa [hline] using hfront.append hreads

theorem parse_wellParsed {text : List Char} {known : List Nat} {tickNs : Nat} {sched : Schedule}
    (h : parse text known tickNs = .ok sched) (hs : sched.syndromeArena.length < 2 ^ 32)
    (he : sched.expectedArena.length < 2 ^ 32) :
    ∃ st, st.sched = sched ∧ WellParsed known tickNs (writtenLines text) st := by
  simp only [parse, bind_eq_ok, throwIf_eq_ok] at h
  obtain ⟨-, -, st, hfold, h⟩ := h
  obtain rfl := Except.ok.inj h
  refine ⟨st, rfl, foldlM_readLine ?_ hfold hs he⟩
  exact ⟨.nil, ⟨.nil, by simp, by simp⟩, laid_nil _, laid_nil _, .nil, by simp⟩

/-! ## Names and ids -/

section Names

variable {R : Naming} {text : List Char} {known : List Nat} {tickNs : Nat} {sched : Schedule}

theorem Uses.named {e : Event} {key : String} {v : List Char} (h : Uses R sched e (key, v))
    (hkey : key ∈ signalKeys) : R sched.signalNames v (e.idOf key) := by
  cases h with
  | signal h => simpa [Event.idOf] using h
  | after h => simpa [Event.idOf] using h
  | «until» _ h => simpa [Event.idOf] using h
  | _ => exact absurd hkey (by decide)

theorem LineMeans.named {tokens : List (List Char)} {e : Event}
    (h : LineMeans R known tickNs sched tokens e) {s : List Char × Nat}
    (hs : s ∈ lineSignals tokens e) : R sched.signalNames s.1 s.2 := by
  obtain ⟨⟨key, v⟩, hkv, rfl⟩ := List.mem_map.mp hs
  obtain ⟨hkv, hkey⟩ := List.mem_filter.mp hkv
  exact (h.uses _ hkv).named (by simpa using hkey)

theorem signals_named (h : List.Forall₂ (LineMeans R known tickNs sched) (writtenLines text)
    sched.events) {s : List Char × Nat} (hs : s ∈ signals text sched) :
    R sched.signalNames s.1 s.2 := by
  obtain ⟨⟨tokens, e⟩, hline, hs⟩ := List.mem_flatMap.mp hs
  exact ((List.forall₂_iff_zip.mp h).2 hline).named hs

theorem exists_signal (h : List.Forall₂ (LineMeans R known tickNs sched) (writtenLines text)
    sched.events) {v : List Char} (hv : v ∈ writtenNames text) :
    ∃ id, (v, id) ∈ signals text sched := by
  obtain ⟨tokens, ht, hv⟩ := List.mem_flatMap.mp hv
  have hfst := List.map_fst_zip h.length_eq.le
  rw [← hfst] at ht
  obtain ⟨⟨tokens', e⟩, hline, rfl⟩ := List.mem_map.mp ht
  obtain ⟨kv, hkv, rfl⟩ := List.mem_map.mp hv
  exact ⟨e.idOf kv.1, List.mem_flatMap.mpr ⟨_, hline, List.mem_map.mpr ⟨kv, hkv, rfl⟩⟩⟩

theorem WellParsed.length_names {st : ParseState}
    (h : WellParsed known tickNs (writtenLines text) st) :
    st.sched.signalNames.length = (writtenNames text).dedup.length := by
  refine List.Perm.length_eq ?_
  rw [List.perm_ext_iff_of_nodup h.nodup (List.nodup_dedup _)]
  intro v
  rw [List.mem_dedup]
  constructor
  · exact h.names v
  · intro hv
    obtain ⟨id, hs⟩ := exists_signal h.means hv
    obtain ⟨i, hi, -⟩ := signals_named h.means hs
    exact List.mem_of_getElem? hi

/-- An index that 32 bits hold, and that is not the largest of them, is an id. -/
theorem Interned.identifies {names : List (List Char)} {name : List Char} {id : Nat}
    (h : Interned names name id) (hn : names.length < 2 ^ 32) : Identifies names name id := by
  obtain ⟨i, hi, rfl⟩ := h
  have hlt := (List.getElem?_eq_some_iff.mp hi).1
  rw [u32_of_lt (by omega)]
  refine ⟨hi, ?_⟩
  unfold kNoSignal
  omega

theorem index_unique {names : List (List Char)} (hn : names.Nodup) {name : List Char} {i j : Nat}
    (hi : names[i]? = some name) (hj : names[j]? = some name) : i = j := by
  obtain ⟨hi, rfl⟩ := List.getElem?_eq_some_iff.mp hi
  obtain ⟨hj, heq⟩ := List.getElem?_eq_some_iff.mp hj
  exact (hn.getElem_inj_iff.mp heq).symm

theorem WellParsed.wellFormed {st : ParseState}
    (h : WellParsed known tickNs (writtenLines text) st)
    (hn : st.sched.signalNames.length < 2 ^ 32) : WellFormed text known tickNs st.sched := by
  have hlines : List.Forall₂ (LineMeans Identifies known tickNs st.sched) (writtenLines text)
      st.sched.events :=
    h.means.imp fun tokens e hm =>
      hm.mono List.prefix_rfl List.prefix_rfl fun _ _ hid => hid.identifies hn
  refine ⟨hlines, h.clock.order, h.syndromes.apart, h.expected.apart, fun s hs s' hs' => ?_,
    fun s hs => ?_⟩
  · have hname := (signals_named hlines hs).1
    have hname' := (signals_named hlines hs').1
    constructor
    · intro heq
      rw [heq, hname'] at hname
      exact (Option.some.inj hname).symm
    · intro heq
      rw [heq] at hname
      exact index_unique h.nodup hname hname'
  · exact (List.getElem?_eq_some_iff.mp (signals_named hlines hs).1).1

/-- With a name for every 32-bit number, one of them has the id that means no signal. -/
theorem WellParsed.not_wellFormed {st : ParseState}
    (h : WellParsed known tickNs (writtenLines text) st)
    (hn : 2 ^ 32 ≤ st.sched.signalNames.length) : ¬ WellFormed text known tickNs st.sched := by
  intro hw
  have hlast : kNoSignal < st.sched.signalNames.length := by
    unfold kNoSignal
    omega
  have hmem := h.names _ (List.getElem_mem hlast)
  obtain ⟨id, hs⟩ := exists_signal hw.lines hmem
  obtain ⟨hid, hne⟩ := signals_named hw.lines hs
  exact hne (index_unique h.nodup hid (List.getElem?_eq_getElem hlast))

end Names

/-! ## When a text is accepted -/

/-- What is parsed from a text is well formed as long as every name in it has an id. -/
theorem parse_wellFormed_iff (text : List Char) (known : List Nat) (tickNs : Nat) (sched : Schedule)
    (h : parse text known tickNs = .ok sched) (hs : sched.syndromeArena.length < 2 ^ 32)
    (he : sched.expectedArena.length < 2 ^ 32) :
    WellFormed text known tickNs sched ↔ (writtenNames text).dedup.length < 2 ^ 32 := by
  obtain ⟨st, rfl, hparsed⟩ := parse_wellParsed h hs he
  rw [← hparsed.length_names]
  constructor
  · intro hw
    by_contra hn
    exact hparsed.not_wellFormed (by omega) hw
  · exact hparsed.wellFormed

/-- A round of literal bits raises a signal, and a stream waits for it. -/
theorem parse_wellFormed_iff_twoLines : ∃ sched,
    parse ("0 enqueue source=0b01 signal=a\n" ++ "- stream source=3 until=a max_rounds=5").toList
      [0] 1000 = .ok sched ∧
    WellFormed ("0 enqueue source=0b01 signal=a\n" ++ "- stream source=3 until=a max_rounds=5").toList
      [0] 1000 sched := by
  have hparse : parse ("0 enqueue source=0b01 signal=a\n" ++
      "- stream source=3 until=a max_rounds=5").toList [0] 1000 = .ok
        { events :=
            [{ op := .stream, syndromeCount := 2, signalId := 0 },
              { trig := .delta, op := .stream, sourceId := 3, untilSignalId := 0, streamMaxRounds := 5 }]
          syndromeArena := [false, true]
          decoders := [0]
          signalNames := [['a']] } := by
    decide +kernel
  exact ⟨_, hparse, (parse_wellFormed_iff _ _ _ _ hparse (by decide) (by decide)).mpr
    (by decide +kernel)⟩

/-! ## A text with too many names -/

def signalName (i : Nat) : List Char :=
  's' :: (Nat.digits 2 i).map fun d => if d = 0 then '0' else '1'

def signalLine (i : Nat) : List Char := "0 reset signal=".toList ++ signalName i

def manySignals (n : Nat) : List Char :=
  Delimited.terminate '\n' ((List.range n).map signalLine)

theorem signalName_injective : Function.Injective signalName := by
  have hread : ∀ i, Nat.ofDigits 2 ((signalName i).tail.map fun c => if c = '0' then 0 else 1) = i := by
    intro i
    have hdigits : (signalName i).tail.map (fun c => if c = '0' then 0 else 1) = Nat.digits 2 i := by
      rw [signalName, List.tail_cons, List.map_map]
      refine (List.map_congr_left fun d hd => ?_).trans (List.map_id _)
      have := Nat.digits_lt_base (by decide) hd
      obtain rfl | rfl : d = 0 ∨ d = 1 := by omega
      · rfl
      · rfl
    rw [hdigits, Nat.ofDigits_digits]
  intro i j h
  rw [← hread i, h, hread j]

theorem mem_signalName {i : Nat} {c : Char} (h : c ∈ signalName i) : c ∈ ['s', '0', '1'] := by
  rcases List.mem_cons.mp h with rfl | h
  · simp
  · obtain ⟨d, -, rfl⟩ := List.mem_map.mp h
    split <;> simp

theorem mem_signalLine {i : Nat} {c : Char} (h : c ∈ signalLine i) :
    c ∈ "0 reset signal=s01".toList := by
  -- The characters are compared one by one: a bounded quantifier would be decided over all characters.
  have hall : ∀ {l : List Char}, (l.all fun d => "0 reset signal=s01".toList.contains d) = true →
      c ∈ l → c ∈ "0 reset signal=s01".toList :=
    fun hl hc => List.contains_iff_mem.mp (List.all_eq_true.mp hl c hc)
  rcases List.mem_append.mp h with h | h
  · exact hall (by decide) h
  · exact hall (by decide) (mem_signalName h)

theorem tokenize_signalLine (i : Nat) :
    tokenize (signalLine i) = [['0'], "reset".toList, "signal=".toList ++ signalName i] := by
  have hall : ∀ {l : List Char} {f : Char → Bool}, (l.all fun d => !f d) = true →
      ∀ c ∈ l, f c = false :=
    fun hl c hc => by simpa using List.all_eq_true.mp hl c hc
  have hname : ∀ c ∈ "signal=".toList ++ signalName i, isSpace c = false := by
    intro c hc
    rcases List.mem_append.mp hc with hc | hc
    · exact hall (by decide : ("signal=".toList.all fun d => !isSpace d) = true) c hc
    · exact hall (by decide : (['s', '0', '1'].all fun d => !isSpace d) = true) c (mem_signalName hc)
  have hcomment : (signalLine i).takeWhile (· ≠ '#') = signalLine i := by
    rw [List.takeWhile_eq_self_iff]
    intro c hc
    have hhash : ("0 reset signal=s01".toList.all fun d => !(d == '#')) = true := by decide
    simpa using hall hhash c (mem_signalLine hc)
  have hline : signalLine i = ['0'] ++ ' ' :: ("reset".toList ++ ' ' ::
      ("signal=".toList ++ signalName i)) := rfl
  rw [tokenize, hcomment, hline, List.splitOnP_append_cons_of_forall_mem ?_ _ rfl,
    List.splitOnP_append_cons_of_forall_mem ?_ _ rfl, List.splitOnP_eq_singleton hname]
  · simp
  · intro c hc
    simpa using hall (by decide : ("reset".toList.all fun d => !isSpace d) = true) c hc
  · intro c hc
    simpa using hall (by decide : (['0'].all fun d => !isSpace d) = true) c hc

theorem splitOperand_signal (i : Nat) :
    splitOperand ("signal=".toList ++ signalName i) = some ("signal", signalName i) := by
  simp [splitOperand]

/-- What the lines of such a text leave: no bits, and nothing but tick 0. -/
structure OnlySignals (st : ParseState) : Prop where
  syndromes : st.sched.syndromeArena = []
  expected : st.sched.expectedArena = []
  noDelta : st.clock.sawDelta = false
  ticks : ∀ t ∈ st.clock.lastTick, t = 0

/-! ## Its lines -/

theorem parseLine_signalLine {st : ParseState} (h : OnlySignals st) (i : Nat) :
    ∃ st', parseLine [0] 1 (signalLine i) st (tokenize (signalLine i)) = .ok st' ∧
      OnlySignals st' := by
  have hlast : st.clock.lastTick.any (0 < ·) = false := by
    cases ht : st.clock.lastTick with
    | none => rfl
    | some t => simp [h.ticks t ht]
  have hops : Operands.create ["signal=".toList ++ signalName i] {} =
      .ok { kv := [⟨"signal", signalName i, false⟩] } := by
    simp only [Operands.create, splitOperand_signal]
    rfl
  have htrigger : readTrigger ['0'] 1 {} st.clock = .ok ({}, { st.clock with lastTick := some 0 }) := by
    have hplace : st.clock.place 0 = .ok { st.clock with lastTick := some 0 } := by
      simp only [Clock.place, h.noDelta, hlast]
      rfl
    have hnumber : parseU64 ['0'] "trigger tick" = .ok 0 := rfl
    have hdigits : isDigits ['0'] = true := rfl
    simp [readTrigger, triggerDigits, hdigits, hnumber, hplace, throwIf]
  have hsession : readSession { kv := [⟨"signal", signalName i, false⟩] } [0] = .ok 0 := rfl
  have hsignal : readSignal { kv := [⟨"signal", signalName i, false⟩] } "signal"
      st.sched.signalNames = .ok (intern st.sched.signalNames (signalName i)) := rfl
  have hafter : ∀ names, readSignal { kv := [⟨"signal", signalName i, false⟩] } "after" names =
      .ok (kNoSignal, names) := fun _ => rfl
  rw [tokenize_signalLine]
  refine ⟨⟨{ st.sched with
      signalNames := (intern st.sched.signalNames (signalName i)).2
      events := st.sched.events ++
        [{ signalId := (intern st.sched.signalNames (signalName i)).1 }] },
    { st.clock with lastTick := some 0 }⟩, ?_, ⟨h.syndromes, h.expected, h.noDelta, by simp⟩⟩
  simp only [parseLine, hops, readCommon, htrigger, hsession, hsignal, hafter, ok_bind]
  rfl

theorem lines_manySignals (n : Nat) :
    Delimited.lines '\n' (manySignals n) = (List.range n).map signalLine := by
  refine Delimited.lines_terminate fun line hline hmem => ?_
  obtain ⟨i, -, rfl⟩ := List.mem_map.mp hline
  exact absurd (mem_signalLine hmem) (by decide)

/-- Such a text is accepted, whatever its ids are. -/
theorem parse_manySignals (n : Nat) :
    ∃ sched, parse (manySignals n) [0] 1 = .ok sched ∧ sched.syndromeArena = [] ∧
      sched.expectedArena = [] := by
  have hrun : ∀ (is : List Nat) (k : Nat) (st : ParseState), OnlySignals st →
      ∃ st', ((is.map signalLine).zipIdx k).foldlM (readLine [0] 1) st = .ok st' ∧
        OnlySignals st' := by
    intro is
    induction is with
    | nil => exact fun k st hst => ⟨st, rfl, hst⟩
    | cons i is ih =>
      intro k st hst
      obtain ⟨st₁, hstep, hst₁⟩ := parseLine_signalLine hst i
      obtain ⟨st', hrest, hst'⟩ := ih (k + 1) st₁ hst₁
      have hline : readLine [0] 1 st (signalLine i, k) = .ok st₁ := by
        have hne : tokenize (signalLine i) ≠ [] := by simp [tokenize_signalLine]
        simp only [readLine, hne, if_false, hstep]
        rfl
      refine ⟨st', ?_, hst'⟩
      rw [List.map_cons, List.zipIdx_cons, List.foldlM_cons, hline, ok_bind, hrest]
  obtain ⟨st, hfold, hst⟩ := hrun (List.range n) 1
    { sched := { decoders := [0], tickNs := 1 } } ⟨rfl, rfl, rfl, by simp⟩
  refine ⟨st.sched, ?_, hst.syndromes, hst.expected⟩
  simp only [parse, lines_manySignals, hfold, throwIf, ok_bind]
  rfl

theorem writtenNames_manySignals (n : Nat) :
    writtenNames (manySignals n) = (List.range n).map signalName := by
  have hline : ∀ i, lineNames (tokenize (signalLine i)) = [signalName i] := by
    intro i
    have hkeyed : lineOperands (tokenize (signalLine i)) = [("signal", signalName i)] := by
      rw [tokenize_signalLine]
      simp only [lineOperands, keyed, List.drop_succ_cons, List.drop_zero, List.filterMap_cons,
        splitOperand_signal, List.filterMap_nil]
    rw [lineNames, hkeyed]
    rfl
  have hall : writtenLines (manySignals n) =
      (List.range n).map fun i => tokenize (signalLine i) := by
    rw [writtenLines, lines_manySignals, List.map_map]
    refine List.filter_eq_self.mpr fun tokens ht => ?_
    obtain ⟨i, -, rfl⟩ := List.mem_map.mp ht
    simp [tokenize_signalLine]
  rw [writtenNames, hall, List.flatMap_map]
  simp only [hline]
  exact List.map_eq_flatMap.symm

/-- A schedule that is parsed need not be well formed: with 2^32 names, one of them is no signal. -/
theorem not_parse_wellFormed : ¬ ∀ (text : List Char) (known : List Nat) (tickNs : Nat)
    (sched : Schedule), parse text known tickNs = .ok sched →
    sched.syndromeArena.length < 2 ^ 32 → sched.expectedArena.length < 2 ^ 32 →
    WellFormed text known tickNs sched := by
  intro hall
  obtain ⟨sched, hparse, hs, he⟩ := parse_manySignals (2 ^ 32)
  have hw := hall _ _ _ _ hparse (by simp [hs]) (by simp [he])
  obtain ⟨st, rfl, hparsed⟩ := parse_wellParsed hparse (by simp [hs]) (by simp [he])
  refine hparsed.not_wellFormed ?_ hw
  rw [hparsed.length_names, writtenNames_manySignals,
    List.Nodup.dedup (List.nodup_range.map signalName_injective), List.length_map,
    List.length_range]

end CudaqQec.Playback
