import CudaqQec.Playback.Schedule
import CudaqQec.Lib.Arena
import Mathlib.Data.List.Nodup

/-!
# What the operands of a line mean

`Uses`: what an operand asks for is what the event of its line does. Every reader is stated once, as
what it makes of the operands it reads; what is left unread is rejected, so that the operands of an
accepted line are all used.
-/

namespace CudaqQec.Playback

open Checked Arena

/-! ## The meaning of an operand -/

/-- Some digits write a number of `bits` bits. -/
def Writes (bits : Nat) (s : List Char) (n : Nat) : Prop :=
  isDigits s = true ∧ number s = n ∧ n < 2 ^ bits

/-- The slice of an arena that holds what a literal writes. -/
structure Holds (arena : List Bool) (offset count : Nat) (bits : List Char) : Prop where
  written : bits.all isBit = true
  width : count = bits.length
  inside : offset + count ≤ arena.length
  content : slice arena (offset, count) = bits.map (· == '1')

/-- An id is an index of a name, as 32 bits hold it. -/
def Interned (names : List (List Char)) (name : List Char) (id : Nat) : Prop :=
  ∃ i, names[i]? = some name ∧ id = u32 i

/-- An id stands for a name, and is not the absence of one. -/
def Identifies (names : List (List Char)) (name : List Char) (id : Nat) : Prop :=
  names[id]? = some name ∧ id ≠ kNoSignal

abbrev Naming := List (List Char) → List Char → Nat → Prop

/-- An operand `key=value` is what its event does. -/
inductive Uses (R : Naming) (sched : Schedule) (e : Event) : String × List Char → Prop
  | session {v} : Writes 64 v e.decoderId → Uses R sched e ("session", v)
  | signal {v} : R sched.signalNames v e.signalId → Uses R sched e ("signal", v)
  | after {v} : R sched.signalNames v e.afterSignalId → Uses R sched e ("after", v)
  | until {v} : e.op = .stream → R sched.signalNames v e.untilSignalId → Uses R sched e ("until", v)
  | source {v} : e.op = .stream ∨ e.op = .enqueueData → Writes 32 v e.sourceId →
      e.sourceId ≠ kNoSource → Uses R sched e ("source", v)
  | literal {bits} : e.op = .stream ∨ e.op = .enqueueData → e.sourceId = kNoSource →
      Holds sched.syndromeArena e.syndromeOffset e.syndromeCount bits →
      Uses R sched e ("source", '0' :: 'b' :: bits)
  | returnSize {v} : e.op.readsResult = true → Writes 32 v e.returnSize →
      Uses R sched e ("return_size", v)
  | first {v} : e.op = .getLogicalMeasurements → Writes 32 v e.first → Uses R sched e ("first", v)
  | reset {v} : e.op.readsResult = true → Writes 32 v e.reset.toNat → Uses R sched e ("reset", v)
  | every {v} : e.op = .stream → Writes 64 v e.streamEveryTicks → Uses R sched e ("every", v)
  | rounds {v} : e.op = .stream → Writes 32 v e.streamMinRounds →
      e.streamMinRounds = e.streamMaxRounds → Uses R sched e ("rounds", v)
  | minRounds {v} : e.op = .stream → Writes 32 v e.streamMinRounds → Uses R sched e ("min_rounds", v)
  | maxRounds {v} : e.op = .stream → Writes 32 v e.streamMaxRounds → Uses R sched e ("max_rounds", v)

/-- The operand without a key is the result that its event expects. -/
def UsesBare (sched : Schedule) (e : Event) (bits : List Char) : Prop :=
  e.op.readsResult = true ∧ Holds sched.expectedArena e.expectedOffset e.expectedCount bits

/-! ## Growing schedules -/

/-- What reading does to a schedule: arenas and names only grow. -/
structure Grows (sched sched' : Schedule) : Prop where
  events : sched'.events = sched.events
  syndromes : sched.syndromeArena <+: sched'.syndromeArena
  expected : sched.expectedArena <+: sched'.expectedArena
  names : sched.signalNames <+: sched'.signalNames
  nodup : sched.signalNames.Nodup → sched'.signalNames.Nodup

theorem Grows.refl (sched : Schedule) : Grows sched sched :=
  ⟨rfl, List.prefix_rfl, List.prefix_rfl, List.prefix_rfl, id⟩

theorem Holds.mono {arena arena' : List Bool} {offset count : Nat} {bits : List Char}
    (h : Holds arena offset count bits) (hp : arena <+: arena') : Holds arena' offset count bits :=
  ⟨h.written, h.width, h.inside.trans hp.length_le, (slice_of_grown h.inside hp).trans h.content⟩

theorem Interned.mono {names names' : List (List Char)} {name : List Char} {id : Nat}
    (h : Interned names name id) (hp : names <+: names') : Interned names' name id := by
  obtain ⟨i, hi, hid⟩ := h
  obtain ⟨rest, rfl⟩ := hp
  refine ⟨i, ?_, hid⟩
  rw [List.getElem?_append_left (List.getElem?_eq_some_iff.mp hi).1, hi]

/-- An operand keeps its meaning while a schedule grows, as far as its names do. -/
theorem Uses.mono {R R' : Naming} {sched sched' : Schedule} {e : Event} {kv : String × List Char}
    (h : Uses R sched e kv) (hs : sched.syndromeArena <+: sched'.syndromeArena)
    (hR : ∀ name id, R sched.signalNames name id → R' sched'.signalNames name id) :
    Uses R' sched' e kv := by
  cases h with
  | session h => exact .session h
  | signal h => exact .signal (hR _ _ h)
  | after h => exact .after (hR _ _ h)
  | «until» ho h => exact .until ho (hR _ _ h)
  | source ho h hne => exact .source ho h hne
  | literal ho h hh => exact .literal ho h (hh.mono hs)
  | returnSize ho h => exact .returnSize ho h
  | first ho h => exact .first ho h
  | reset ho h => exact .reset ho h
  | every ho h => exact .every ho h
  | rounds ho h heq => exact .rounds ho h heq
  | minRounds ho h => exact .minRounds ho h
  | maxRounds ho h => exact .maxRounds ho h

/-! ## What a line carries -/

def keyed (toks : List (List Char)) : List (String × List Char) := toks.filterMap splitOperand

namespace Operands

variable {ops : Operands}

/-- The operands of some tokens, none of them read. -/
structure Of (toks : List (List Char)) (ops : Operands) : Prop where
  kv : ops.kv = (keyed toks).map fun kv => ⟨kv.1, kv.2, false⟩
  nodup : ((keyed toks).map Prod.fst).Nodup
  bare : ∀ tok ∈ toks, splitOperand tok = none → ops.bare = tok ∧ tok ≠ []
  bareRead : ops.bareRead = false

/-- The constructor keeps what it has, and adds the operands of the tokens. -/
theorem create_appends {toks : List (List Char)} {ops' : Operands} (h : create toks ops = .ok ops')
    (hne : ∀ tok ∈ toks, tok ≠ []) (hnodup : (ops.kv.map (·.key)).Nodup) :
    ops'.kv = ops.kv ++ (keyed toks).map (fun kv => ⟨kv.1, kv.2, false⟩) ∧
      (ops'.kv.map (·.key)).Nodup ∧ (∀ tok ∈ toks, splitOperand tok = none → ops'.bare = tok) ∧
      (ops.bare ≠ [] → ops'.bare = ops.bare) ∧ ops'.bareRead = ops.bareRead := by
  induction toks generalizing ops with
  | nil =>
    rw [create] at h
    obtain rfl := Except.ok.inj h
    simpa [keyed] using hnodup
  | cons tok toks ih =>
    have htail : ∀ tok' ∈ toks, tok' ≠ [] := fun tok' ht => hne tok' (List.mem_cons_of_mem tok ht)
    rw [create] at h
    cases hsplit : splitOperand tok with
    | none =>
      simp only [hsplit, bind_eq_ok, throwIf_eq_ok] at h
      obtain ⟨-, hbare, h⟩ := h
      obtain ⟨hkv, hn, hall, hkeep, hread⟩ := ih h htail hnodup
      have htok := hkeep (hne tok List.mem_cons_self)
      refine ⟨by simpa [keyed, hsplit] using hkv, hn, ?_, fun hb => absurd hb hbare, hread⟩
      intro tok' ht hs
      rcases List.mem_cons.mp ht with rfl | ht
      · exact htok
      · exact hall tok' ht hs
    | some kv =>
      simp only [hsplit, bind_eq_ok, throwIf_eq_ok] at h
      obtain ⟨-, hkey, h⟩ := h
      have hn : ((ops.kv ++ [(⟨kv.1, kv.2, false⟩ : Operand)]).map (·.key)).Nodup := by
        rw [List.map_append, List.nodup_append]
        refine ⟨hnodup, by simp, ?_⟩
        rintro k hk k' hk' rfl
        exact hkey (by simpa [List.mem_singleton.mp hk'] using hk)
      obtain ⟨hkv, hn, hall, hkeep, hread⟩ := ih h htail hn
      refine ⟨by simp [hkv, keyed, hsplit], hn, ?_, hkeep, hread⟩
      intro tok' ht hs
      rcases List.mem_cons.mp ht with rfl | ht
      · simp [hsplit] at hs
      · exact hall tok' ht hs

theorem create_of {toks : List (List Char)} (h : create toks {} = .ok ops)
    (hne : ∀ tok ∈ toks, tok ≠ []) : Of toks ops := by
  obtain ⟨hkv, hn, hall, -, hread⟩ := create_appends h hne (by simp)
  simp only [List.nil_append] at hkv
  refine ⟨hkv, ?_, fun tok ht hs => ⟨hall tok ht hs, hne tok ht⟩, hread⟩
  simpa [hkv, Function.comp_def] using hn

@[simp] theorem get_mark (key key' : String) : (ops.mark key').get key = ops.get key := by
  simp only [get, mark, List.find?_map, Option.map_map]
  have hkey : ∀ o : Operand, (if o.key = key' then { o with read := true } else o).key = o.key := by
    intro o
    split <;> rfl
  have hvalue : ∀ o : Operand,
      (if o.key = key' then { o with read := true } else o).value = o.value := by
    intro o
    split <;> rfl
  simp only [Function.comp_def, hkey, hvalue]

@[simp] theorem bare_mark (key : String) : (ops.mark key).bare = ops.bare := rfl

@[simp] theorem bareRead_mark (key : String) : (ops.mark key).bareRead = ops.bareRead := rfl

@[simp] theorem get_markBare (key : String) : ops.markBare.get key = ops.get key := rfl

@[simp] theorem unread_markBare : ops.markBare.unread = ops.unread := rfl

@[simp] theorem uint_mark (bits : Nat) (key key' : String) (fallback : Nat) :
    (ops.mark key').uint bits key fallback = ops.uint bits key fallback := by
  simp [uint]

@[simp] theorem name_mark (key key' : String) : (ops.mark key').name key = ops.name key := by
  simp [name]

@[simp] theorem mem_unread_mark {key key' : String} :
    key ∈ (ops.mark key').unread ↔ key ∈ ops.unread ∧ key ≠ key' := by
  simp only [unread, mark, List.mem_map, List.mem_filter]
  constructor
  · rintro ⟨-, ⟨⟨o, ho, rfl⟩, hread⟩, rfl⟩
    split at hread
    · simp at hread
    · next hk => exact ⟨⟨o, ⟨ho, hread⟩, by simp [hk]⟩, by simp [hk]⟩
  · rintro ⟨⟨o, ⟨ho, hread⟩, rfl⟩, hk⟩
    exact ⟨o, ⟨⟨o, ho, by simp [hk]⟩, hread⟩, rfl⟩

theorem Of.mem_unread {toks : List (List Char)} (h : Of toks ops) {key : String} :
    key ∈ ops.unread ↔ key ∈ (keyed toks).map Prod.fst := by
  simp [unread, h.kv, List.filter_map, Function.comp_def]

/-- A key stands once, so its value is the one that a reader gets. -/
theorem Of.get_eq_some {toks : List (List Char)} (h : Of toks ops) {key : String} {v : List Char} :
    ops.get key = some v ↔ (key, v) ∈ keyed toks := by
  have hget : ops.get key = ((keyed toks).find? (·.1 = key)).map Prod.snd := by
    simp [get, h.kv, List.find?_map, Function.comp_def]
  rw [hget, Option.map_eq_some_iff]
  constructor
  · rintro ⟨⟨k, v'⟩, hfind, rfl⟩
    have hk : k = key := by simpa using List.find?_some hfind
    exact hk ▸ List.mem_of_find?_eq_some hfind
  · intro hmem
    cases hfind : (keyed toks).find? (·.1 = key) with
    | none =>
      have := List.find?_eq_none.mp hfind (key, v) hmem
      simp at this
    | some kv =>
      have hk : kv.1 = key := by simpa using List.find?_some hfind
      have := List.inj_on_of_nodup_map h.nodup (List.mem_of_find?_eq_some hfind) hmem hk
      exact ⟨kv, rfl, by rw [this]⟩

theorem Of.get_eq_none {toks : List (List Char)} (h : Of toks ops) {key : String} :
    ops.get key = none ↔ key ∉ (keyed toks).map Prod.fst := by
  rw [Option.eq_none_iff_forall_not_mem]
  simp only [Option.mem_def, h.get_eq_some, List.mem_map, Prod.exists, exists_and_right,
    exists_eq_right, not_exists]

/-- `reject_unread` lets a line pass when everything on it was read. -/
theorem rejectUnread_eq_ok {opName : String} {u : Unit} (h : ops.rejectUnread opName = .ok u) :
    ops.unread = [] ∧ (ops.bare ≠ [] → ops.bareRead = true) := by
  simp only [rejectUnread, throwIf_eq_ok, ne_eq, not_not, List.append_eq_nil_iff,
    List.map_eq_nil_iff] at h
  refine ⟨h.1, fun hb => ?_⟩
  have := h.2
  simpa [hb] using this

end Operands

/-! ## The readers -/

theorem parseUint_eq_ok {bits : Nat} {s : List Char} {what : String} {n : Nat}
    (h : parseUint bits s what = .ok n) : Writes bits s n := by
  simp only [parseUint, bind_eq_ok, throwIf_eq_ok] at h
  obtain ⟨-, hdigits, -, hfits, hn⟩ := h
  obtain rfl := Except.ok.inj hn
  exact ⟨by simpa using hdigits, rfl, by omega⟩

theorem uint_eq_ok {ops : Operands} {bits : Nat} {key : String} {fallback n : Nat}
    (h : ops.uint bits key fallback = .ok n) :
    (∀ v, ops.get key = some v → Writes bits v n) ∧ (ops.get key = none → n = fallback) := by
  cases hget : ops.get key with
  | none =>
    rw [Operands.uint, hget] at h
    exact ⟨by simp, fun _ => (Except.ok.inj h).symm⟩
  | some v =>
    rw [Operands.uint, hget] at h
    refine ⟨fun v' hv => ?_, by simp⟩
    obtain rfl := Option.some.inj hv
    exact parseUint_eq_ok h

theorem name_eq_ok {ops : Operands} {key : String} {n : List Char} (h : ops.name key = .ok n) :
    (ops.get key = none ∧ n = []) ∨ (ops.get key = some n ∧ n ≠ []) := by
  cases hget : ops.get key with
  | none =>
    rw [Operands.name, hget] at h
    exact .inl ⟨rfl, (Except.ok.inj h).symm⟩
  | some v =>
    simp only [Operands.name, hget, bind_eq_ok, throwIf_eq_ok] at h
    obtain ⟨-, hv, h⟩ := h
    obtain rfl := Except.ok.inj h
    exact .inr ⟨rfl, hv⟩

/-- `intern` gives a name's index, and adds the name when it is new. -/
theorem intern_spec (names : List (List Char)) (name : List Char) :
    names <+: (intern names name).2 ∧ (names.Nodup → (intern names name).2.Nodup) ∧
      Interned (intern names name).2 name (intern names name).1 ∧
      ∀ v ∈ (intern names name).2, v ∈ names ∨ v = name := by
  unfold intern
  cases hfind : names.findIdx? (· = name) with
  | some i =>
    obtain ⟨hi, hname, -⟩ := List.findIdx?_eq_some_iff_getElem.mp hfind
    refine ⟨List.prefix_rfl, id, ⟨i, ?_, rfl⟩, fun v hv => .inl hv⟩
    simpa [List.getElem?_eq_getElem hi] using hname
  | none =>
    have hnew : name ∉ names := by
      intro hmem
      have := List.findIdx?_eq_none_iff.mp hfind name hmem
      simp at this
    refine ⟨List.prefix_append _ _, fun hn => ?_, ⟨names.length, by simp, rfl⟩, by simp⟩
    rw [List.nodup_append]
    refine ⟨hn, by simp, ?_⟩
    rintro v hv v' hv' rfl
    exact hnew (by simpa [List.mem_singleton.mp hv'] using hv)

/-- What `read_signal` makes of a line and of the names so far. -/
structure SignalRead (ops : Operands) (key : String) (names : List (List Char)) (id : Nat)
    (names' : List (List Char)) : Prop where
  grows : names <+: names'
  nodup : names.Nodup → names'.Nodup
  absent : ops.get key = none → id = kNoSignal
  interned : ∀ v, ops.get key = some v → Interned names' v id
  new : ∀ v ∈ names', v ∈ names ∨ ops.get key = some v

theorem readSignal_eq_ok {ops : Operands} {key : String} {names names' : List (List Char)} {id : Nat}
    (h : readSignal ops key names = .ok (id, names')) : SignalRead ops key names id names' := by
  simp only [readSignal, bind_eq_ok] at h
  obtain ⟨n, hname, h⟩ := h
  rcases name_eq_ok hname with ⟨hget, rfl⟩ | ⟨hget, hn⟩
  · obtain ⟨rfl, rfl⟩ := Prod.mk.inj (Except.ok.inj h)
    exact ⟨List.prefix_rfl, fun hn => hn, fun _ => rfl, by simp [hget], fun v hv => .inl hv⟩
  · rw [if_neg hn] at h
    obtain ⟨hgrows, hnodup, hid, hnew⟩ := intern_spec names n
    rw [Except.ok.inj h] at hgrows hnodup hid hnew
    refine ⟨hgrows, hnodup, by simp [hget], ?_, fun v hv => ?_⟩
    · intro v hv
      obtain rfl : n = v := by simpa [hget] using hv
      exact hid
    · rcases hnew v hv with hv | rfl
      · exact .inl hv
      · exact .inr hget

/-! ## Sources and rounds -/

/-- What `read_source` makes of a line: a source's id, or one round of bits in the arena. -/
theorem readSource_eq_ok {ops : Operands} {opName : String} {sched sched' : Schedule} {e e' : Event}
    (h : readSource ops opName sched e = .ok (e', sched')) :
    (∃ v id, ops.get "source" = some v ∧ Writes 32 v id ∧ id ≠ kNoSource ∧
      e' = { e with sourceId := id } ∧ sched' = sched) ∨
    ∃ bits, ops.get "source" = some ('0' :: 'b' :: bits) ∧ bits.all isBit = true ∧
      e' = { e with
        sourceId := kNoSource
        syndromeOffset := u32 sched.syndromeArena.length
        syndromeCount := u32 bits.length } ∧
      sched' = { sched with syndromeArena := sched.syndromeArena ++ bits.map (· == '1') } := by
  simp only [readSource, bind_eq_ok, throwIf_eq_ok] at h
  obtain ⟨v, hname, -, hv, h⟩ := h
  obtain ⟨hget, -⟩ : ops.get "source" = some v ∧ v ≠ [] :=
    (name_eq_ok hname).resolve_left fun h => hv h.2
  split at h
  · simp only [bind_eq_ok, throwIf_eq_ok] at h
    obtain ⟨id, hid, -, hne, h⟩ := h
    obtain ⟨rfl, rfl⟩ := Prod.mk.inj (Except.ok.inj h)
    exact .inl ⟨v, id, hget, parseUint_eq_ok hid, hne, rfl, rfl⟩
  · next hfront =>
    simp only [bind_eq_ok, throwIf_eq_ok, appendBits] at h
    obtain ⟨-, -, arena, ⟨-, hbits, harena⟩, h⟩ := h
    obtain rfl := Except.ok.inj harena
    obtain ⟨rfl, rfl⟩ := Prod.mk.inj (Except.ok.inj h)
    have hsplit : v = '0' :: 'b' :: v.drop 2 := by
      rw [ne_eq, not_not] at hfront
      simpa [hfront] using (List.take_append_drop 2 v).symm
    exact .inr ⟨v.drop 2, by rw [hget, ← hsplit], by simpa using hbits, rfl, rfl⟩

/-- What `read_bits` makes of a line. -/
theorem readBits_eq_ok {ops : Operands} {what : String} {sched sched' : Schedule} {e e' : Event}
    (h : readBits ops what sched e = .ok (e', sched')) :
    (ops.bare = [] ∧ e' = e ∧ sched' = sched) ∨
    (ops.bare ≠ [] ∧ ops.bare.all isBit = true ∧
      e' = { e with
        expectedOffset := u32 sched.expectedArena.length
        expectedCount := u32 ops.bare.length } ∧
      sched' = { sched with expectedArena := sched.expectedArena ++ ops.bare.map (· == '1') }) := by
  unfold readBits at h
  split at h
  · next hbare =>
    obtain ⟨rfl, rfl⟩ := Prod.mk.inj (Except.ok.inj h)
    exact .inl ⟨hbare, rfl, rfl⟩
  · next hbare =>
    simp only [bind_eq_ok, throwIf_eq_ok, appendBits] at h
    obtain ⟨arena, ⟨-, hbits, harena⟩, h⟩ := h
    obtain rfl := Except.ok.inj harena
    obtain ⟨rfl, rfl⟩ := Prod.mk.inj (Except.ok.inj h)
    exact .inr ⟨hbare, by simpa using hbits, rfl, rfl⟩

theorem mapM_parseU32 {v? : Option (List Char)} {what : String} {n? : Option Nat}
    (h : v?.mapM (parseU32 · what) = .ok n?) :
    (v? = none ∧ n? = none) ∨ ∃ v n, v? = some v ∧ n? = some n ∧ Writes 32 v n := by
  cases v? with
  | none => exact .inl ⟨rfl, (Except.ok.inj h).symm⟩
  | some v =>
    simp only [Option.mapM_some, map_eq_pure_bind, bind_eq_ok] at h
    obtain ⟨n, hn, h⟩ := h
    exact .inr ⟨v, n, rfl, (Except.ok.inj h).symm, parseUint_eq_ok hn⟩

/-- The bounds that a line writes: `rounds=` stands alone. -/
theorem writtenBounds_eq_ok {ops : Operands} {min max : Option Nat}
    (h : writtenBounds ops = .ok (min, max)) :
    (∀ v, ops.get "rounds" = some v → ∃ n, Writes 32 v n ∧ min = some n ∧ max = some n) ∧
    (∀ v, ops.get "min_rounds" = some v → ∃ n, Writes 32 v n ∧ min = some n) ∧
    ∀ v, ops.get "max_rounds" = some v → ∃ n, Writes 32 v n ∧ max = some n := by
  simp only [writtenBounds, bind_eq_ok, throwIf_eq_ok] at h
  obtain ⟨rounds, hrounds, -, hnomin, min', hmin, -, hnomax, max', hmax, h⟩ := h
  obtain ⟨rfl, rfl⟩ := Prod.mk.inj (Except.ok.inj h)
  rcases mapM_parseU32 hrounds with ⟨hr, rfl⟩ | ⟨v, n, hr, rfl, hw⟩
  · refine ⟨by simp [hr], fun v hv => ?_, fun v hv => ?_⟩
    · rcases mapM_parseU32 hmin with ⟨hg, -⟩ | ⟨v', n, hg, rfl, hw⟩
      · simp [hg] at hv
      · obtain rfl : v' = v := by simpa [hg] using hv
        exact ⟨n, hw, rfl⟩
    · rcases mapM_parseU32 hmax with ⟨hg, -⟩ | ⟨v', n, hg, rfl, hw⟩
      · simp [hg] at hv
      · obtain rfl : v' = v := by simpa [hg] using hv
        exact ⟨n, hw, rfl⟩
  · refine ⟨fun v' hv => ?_, fun v hv => ?_, fun v hv => ?_⟩
    · obtain rfl : v = v' := by simpa [hr] using hv
      exact ⟨n, hw, rfl, rfl⟩
    · simp [hv] at hnomin
    · simp [hv] at hnomax

/-- What `read_round_bounds` makes of a stream. -/
theorem readRoundBounds_eq_ok {ops : Operands} {e e' : Event} (h : readRoundBounds ops e = .ok e') :
    ∃ least most, e' = { e with streamMinRounds := least, streamMaxRounds := most } ∧
      1 ≤ most ∧ least ≤ most ∧ (e.untilSignalId = kNoSignal → least = most) ∧
      (∀ v, ops.get "rounds" = some v → Writes 32 v least ∧ least = most) ∧
      (∀ v, ops.get "min_rounds" = some v → Writes 32 v least) ∧
      ∀ v, ops.get "max_rounds" = some v → Writes 32 v most := by
  simp only [readRoundBounds, bind_eq_ok, throwIf_eq_ok] at h
  obtain ⟨⟨min, max⟩, hwritten, -, hnomax, -, hsame, -, hle, -, hpos, h⟩ := h
  obtain rfl := Except.ok.inj h
  obtain ⟨hrounds, hmin, hmax⟩ := writtenBounds_eq_ok hwritten
  refine ⟨_, _, rfl, by omega, by omega, fun hu => ?_, fun v hv => ?_, fun v hv => ?_, fun v hv => ?_⟩
  · cases max with
    | none => simp [hu]
    | some b =>
      cases min with
      | none => simp [hu] at hnomax
      | some a =>
        have hab : a = b := by simpa [hu] using hsame
        simp [hab]
  · obtain ⟨n, hw, rfl, rfl⟩ := hrounds v hv
    exact ⟨hw, rfl⟩
  · obtain ⟨n, hw, rfl⟩ := hmin v hv
    exact hw
  · obtain ⟨n, hw, rfl⟩ := hmax v hv
    exact hw

/-! ## The operations -/

/-- What an operation finds in its event. -/
structure Plain (e : Event) : Prop where
  syndromes : e.syndromeCount = 0
  expected : e.expectedCount = 0
  noUntil : e.untilSignalId = kNoSignal
  rounds : e.streamMinRounds = 1 ∧ e.streamMaxRounds = 1

def Event.common (e : Event) : Trigger × Nat × Nat × Nat × Nat :=
  (e.trig, e.deadlineNs, e.decoderId, e.signalId, e.afterSignalId)

def operationNamed (opName : String) : Option Operation :=
  if opName = "reset" then some .reset
  else if opName = "enqueue" ∨ opName = "stream" then some .stream
  else if opName = "enqueue_data" then some .enqueueData
  else if opName = "get_corrections" then some .getCorrections
  else if opName = "get_logical_measurements" then some .getLogicalMeasurements
  else none

/-- What an operation makes of its line. -/
structure Performs (op : Operation) (before after : LineState) : Prop where
  op : after.e.op = op
  common : after.e.common = before.e.common
  grows : Grows before.sched after.sched
  new : ∀ v ∈ after.sched.signalNames,
    v ∈ before.sched.signalNames ∨ before.ops.get "until" = some v
  syndromes : Slot before.sched.syndromeArena after.sched.syndromeArena after.e.syndromes
  expected : Slot before.sched.expectedArena after.sched.expectedArena after.e.expectedBits
  uses : ∀ key v, before.ops.get key = some v → key ∈ before.ops.unread → key ∉ after.ops.unread →
    Uses Interned after.sched after.e (key, v)
  bare : before.ops.bare ≠ [] → after.ops.bareRead = true →
    UsesBare after.sched after.e before.ops.bare
  sameBare : after.ops.bare = before.ops.bare
  noUntil : before.ops.get "until" = none → after.e.untilSignalId = kNoSignal
  bounds : after.e.op = .stream → 1 ≤ after.e.streamMaxRounds ∧
    after.e.streamMinRounds ≤ after.e.streamMaxRounds ∧
    (after.e.untilSignalId = kNoSignal → after.e.streamMinRounds = after.e.streamMaxRounds)

/-- Bits that are appended are the slice that their 32-bit offset and width name, when the arena fits
32 bits. -/
theorem append_slice {arena : List Bool} {bits : List Char} (hbits : bits.all isBit = true)
    (hfit : (arena ++ bits.map (· == '1')).length < 2 ^ 32) :
    Slot arena (arena ++ bits.map (· == '1')) (u32 arena.length, u32 bits.length) ∧
      Holds (arena ++ bits.map (· == '1')) (u32 arena.length) (u32 bits.length) bits := by
  rw [List.length_append, List.length_map] at hfit
  rw [u32_of_lt (by omega), u32_of_lt (by omega)]
  have hwidth : (bits.map (· == '1')).length = bits.length := List.length_map ..
  rw [← hwidth]
  exact ⟨slot_append, hbits, hwidth, by simp, slice_append_self⟩

/-- What an operation with a source does with it. -/
def Sourced (ops : Operands) (arena : List Bool) (id offset count : Nat) : Prop :=
  ∀ v, ops.get "source" = some v → (Writes 32 v id ∧ id ≠ kNoSource) ∨
    ∃ bits, v = '0' :: 'b' :: bits ∧ id = kNoSource ∧ Holds arena offset count bits

/-! ## Streams -/

theorem readSource_sourced {ops : Operands} {opName : String} {sched sched' : Schedule} {e e' : Event}
    (h : readSource ops opName sched e = .ok (e', sched')) (hplain : e.syndromeCount = 0)
    (hfit : sched'.syndromeArena.length < 2 ^ 32) :
    ∃ id offset count arena,
      e' = { e with sourceId := id, syndromeOffset := offset, syndromeCount := count } ∧
      sched' = { sched with syndromeArena := arena } ∧ sched.syndromeArena <+: arena ∧
      Slot sched.syndromeArena arena (offset, count) ∧ Sourced ops arena id offset count := by
  rcases readSource_eq_ok h with ⟨v, id, hget, hw, hne, rfl, rfl⟩ | ⟨bits, hget, hbits, rfl, rfl⟩
  · refine ⟨id, e.syndromeOffset, e.syndromeCount, sched'.syndromeArena, rfl, rfl, List.prefix_rfl,
      slot_none hplain, fun v' hv => ?_⟩
    obtain rfl : v = v' := by simpa [hget] using hv
    exact .inl ⟨hw, hne⟩
  · obtain ⟨hslot, hholds⟩ := append_slice hbits hfit
    refine ⟨kNoSource, _, _, _, rfl, rfl, List.prefix_append _ _, hslot, fun v hv => ?_⟩
    obtain rfl : '0' :: 'b' :: bits = v := by simpa [hget] using hv
    exact .inr ⟨bits, rfl, rfl, hholds⟩

theorem Sourced.uses {ops : Operands} {sched : Schedule} {e : Event} {v : List Char}
    (h : Sourced ops sched.syndromeArena e.sourceId e.syndromeOffset e.syndromeCount)
    (hget : ops.get "source" = some v) (hop : e.op = .stream ∨ e.op = .enqueueData) :
    Uses Interned sched e ("source", v) := by
  rcases h v hget with ⟨hw, hne⟩ | ⟨bits, rfl, hid, hholds⟩
  · exact .source hop hw hne
  · exact .literal hop hid hholds

/-- An operation that takes a source and nothing else. -/
theorem readSource_performs {op : Operation} {opName : String} {st : LineState} {e : Event}
    {sched : Schedule} (hop : op = .stream ∨ op = .enqueueData)
    (h : readSource st.ops opName st.sched { st.e with op := op } = .ok (e, sched))
    (hplain : Plain st.e) (hbare : st.ops.bareRead = false)
    (hfit : sched.syndromeArena.length < 2 ^ 32) :
    Performs op st ⟨e, sched, st.ops.mark "source"⟩ := by
  obtain ⟨id, offset, count, arena, rfl, rfl, hgrows, hslot, hsource⟩ :=
    readSource_sourced h hplain.syndromes hfit
  exact
    { op := rfl
      common := rfl
      grows := ⟨rfl, hgrows, List.prefix_rfl, List.prefix_rfl, fun hn => hn⟩
      new := fun v hv => .inl hv
      syndromes := hslot
      expected := slot_none hplain.expected
      uses := by
        intro key v hget hunread hread
        obtain rfl : key = "source" := by simpa [hunread] using hread
        exact Sourced.uses hsource hget hop
      bare := fun _ hread => by simp [hbare] at hread
      sameBare := rfl
      noUntil := fun _ => hplain.noUntil
      bounds := fun _ => by simp [hplain.rounds] }

/-! ## Reads -/

/-- What the flags of a read make of its line: only a logical read takes `first=`. -/
theorem readFlags_eq_ok {ops ops' : Operands} {op : Operation} {e e' : Event}
    (h : readFlags ops op e = .ok (e', ops')) :
    (∃ width first reset,
      e' = { e with op := op, returnSize := width, first := first, reset := decide (reset ≠ 0) } ∧
      (∀ v, ops.get "return_size" = some v → Writes 32 v width) ∧
      (∀ v, op = .getLogicalMeasurements → ops.get "first" = some v → Writes 32 v first) ∧
      ∀ v, ops.get "reset" = some v → Writes 32 v (decide (reset ≠ 0)).toNat) ∧
    ops'.bare = ops.bare ∧
    ∀ key ∈ ops.unread, key ∉ ops'.unread →
      key = "return_size" ∨ key = "reset" ∨ key = "first" ∧ op = .getLogicalMeasurements := by
  have hflag : ∀ reset : Nat, ¬ 1 < reset → (decide (reset ≠ 0)).toNat = reset := by
    intro reset hle
    obtain rfl | rfl : reset = 0 ∨ reset = 1 := by omega
    · rfl
    · rfl
  by_cases hop : op = .getLogicalMeasurements
  · simp only [readFlags, hop, if_true, bind_eq_ok, throwIf_eq_ok, Operands.uint_mark] at h
    obtain ⟨width, hwidth, first, hfirst, reset, hreset, -, hle, h⟩ := h
    obtain ⟨rfl, rfl⟩ := Prod.mk.inj (Except.ok.inj h)
    refine ⟨⟨width, first, reset, by rw [hop], (uint_eq_ok hwidth).1,
      fun v _ => (uint_eq_ok hfirst).1 v, ?_⟩, rfl, fun key hunread hread => ?_⟩
    · rw [hflag reset hle]
      exact (uint_eq_ok hreset).1
    · simp only [Operands.mem_unread_mark, hunread, true_and] at hread
      grind
  · simp only [readFlags, hop, if_false, ok_bind, bind_eq_ok, throwIf_eq_ok, Operands.uint_mark] at h
    obtain ⟨width, hwidth, reset, hreset, -, hle, h⟩ := h
    obtain ⟨rfl, rfl⟩ := Prod.mk.inj (Except.ok.inj h)
    refine ⟨⟨width, e.first, reset, rfl, (uint_eq_ok hwidth).1, fun v hlog => absurd hlog hop, ?_⟩,
      rfl, fun key hunread hread => ?_⟩
    · rw [hflag reset hle]
      exact (uint_eq_ok hreset).1
    · simp only [Operands.mem_unread_mark, hunread, true_and] at hread
      grind

/-- An operation that reads a result. -/
theorem readRead_performs {opName : String} {op : Operation} {st st' : LineState}
    (hop : op.readsResult = true) (h : readRead opName op st = .ok st') (hplain : Plain st.e)
    (hfit : st'.sched.expectedArena.length < 2 ^ 32) : Performs op st st' := by
  simp only [readRead, bind_eq_ok] at h
  obtain ⟨⟨e₁, ops₁⟩, hflags, ⟨e₂, sched₂⟩, hbits, -, -, h⟩ := h
  obtain rfl := Except.ok.inj h
  obtain ⟨⟨width, first, reset, rfl, hwidth, hfirst, hreset⟩, hbare, hkeys⟩ := readFlags_eq_ok hflags
  have hnostream : op ≠ .stream := by
    rintro rfl
    simp [Operation.readsResult] at hop
  -- The flags do not depend on the bits.
  have huses : ∀ e sched, e.op = op → e.returnSize = width → e.first = first →
      e.reset = decide (reset ≠ 0) → ∀ key v, st.ops.get key = some v → key ∈ st.ops.unread →
      key ∉ ops₁.unread → Uses Interned sched e (key, v) := by
    intro e sched heop hew hef her key v hget hunread hread
    rcases hkeys key hunread hread with rfl | rfl | ⟨rfl, hlog⟩
    · exact .returnSize (heop ▸ hop) (hew ▸ hwidth v hget)
    · exact .reset (heop ▸ hop) (her ▸ hreset v hget)
    · exact .first (heop.trans hlog) (hef ▸ hfirst v hlog hget)
  rcases readBits_eq_ok hbits with ⟨hnone, rfl, rfl⟩ | ⟨hne, hwritten, rfl, rfl⟩
  · exact
      { op := rfl
        common := rfl
        grows := .refl _
        new := fun v hv => .inl hv
        syndromes := slot_none hplain.syndromes
        expected := slot_none hplain.expected
        uses := huses _ _ rfl rfl rfl rfl
        bare := fun hb => absurd (hbare ▸ hnone) hb
        sameBare := hbare
        noUntil := fun _ => hplain.noUntil
        bounds := fun hs => absurd hs hnostream }
  · obtain ⟨hslot, hholds⟩ := append_slice hwritten hfit
    exact
      { op := rfl
        common := rfl
        grows := ⟨rfl, List.prefix_rfl, List.prefix_append _ _, List.prefix_rfl, fun hn => hn⟩
        new := fun v hv => .inl hv
        syndromes := slot_none hplain.syndromes
        expected := hslot
        uses := huses _ _ rfl rfl rfl rfl
        bare := fun _ _ => ⟨hop, hbare ▸ hholds⟩
        sameBare := hbare
        noUntil := fun _ => hplain.noUntil
        bounds := fun hs => absurd hs hnostream }

/-- A stream reads a source, its pace, what it waits for and its bounds. -/
theorem readStream_performs {opName : String} {tickNs : Nat} {st st' : LineState}
    (h : readStream opName tickNs st = .ok st') (hplain : Plain st.e)
    (hfit : st'.sched.syndromeArena.length < 2 ^ 32) : Performs .stream st st' := by
  simp only [readStream, bind_eq_ok, throwIf_eq_ok] at h
  obtain ⟨⟨e₁, sched₁⟩, hsource, every, hevery, -, -, ⟨untilId, names⟩, huntil, e₂, hbounds, -, -, -,
    hbare, h⟩ := h
  obtain rfl := Except.ok.inj h
  obtain ⟨id, offset, count, arena, rfl, rfl, hgrows, hslot, hsourced⟩ :=
    readSource_sourced hsource hplain.syndromes hfit
  have hsignal := readSignal_eq_ok huntil
  obtain ⟨least, most, rfl, hpos, hle, hfixed, hrounds, hmin, hmax⟩ := readRoundBounds_eq_ok hbounds
  exact
    { op := rfl
      common := rfl
      grows := ⟨rfl, hgrows, List.prefix_rfl, hsignal.grows, hsignal.nodup⟩
      new := hsignal.new
      syndromes := hslot
      expected := slot_none hplain.expected
      uses := by
        intro key v hget hunread hread
        have hkey : key = "source" ∨ key = "every" ∨ key = "until" ∨ key = "rounds" ∨
            key = "min_rounds" ∨ key = "max_rounds" := by
          simp only [Operands.unread_markBare, Operands.mem_unread_mark, hunread, true_and] at hread
          grind
        rcases hkey with rfl | rfl | rfl | rfl | rfl | rfl
        · exact Sourced.uses hsourced hget (.inl rfl)
        · exact .every rfl ((uint_eq_ok hevery).1 v hget)
        · exact .until rfl (hsignal.interned v hget)
        · exact .rounds rfl (hrounds v hget).1 (hrounds v hget).2
        · exact .minRounds rfl (hmin v hget)
        · exact .maxRounds rfl (hmax v hget)
      bare := fun hb => absurd (not_not.mp hbare) hb
      sameBare := rfl
      noUntil := hsignal.absent
      bounds := fun _ => ⟨hpos, hle, hfixed⟩ }

/-! ## All of them -/

/-- Every operation makes of its operands what they mean. -/
theorem readOperation_performs {opName : String} {tickNs : Nat} {st st' : LineState}
    (h : readOperation opName tickNs st = .ok st') (hplain : Plain st.e)
    (hbare : st.ops.bareRead = false) (hs : st'.sched.syndromeArena.length < 2 ^ 32)
    (he : st'.sched.expectedArena.length < 2 ^ 32) :
    ∃ op, operationNamed opName = some op ∧ Performs op st st' := by
  unfold readOperation at h
  split at h
  · next hname =>
    obtain rfl := Except.ok.inj h
    refine ⟨.reset, by rw [hname]; rfl, ?_⟩
    exact
      { op := rfl
        common := rfl
        grows := .refl _
        new := fun v hv => .inl hv
        syndromes := slot_none hplain.syndromes
        expected := slot_none hplain.expected
        uses := fun key v _ hunread hread => absurd hunread hread
        bare := fun _ hread => by simp [hbare] at hread
        sameBare := rfl
        noUntil := fun _ => hplain.noUntil
        bounds := fun hs => by simp at hs }
  split at h
  -- `enqueue` is a stream of exactly one round
  · next hname =>
    simp only [readEnqueue, bind_eq_ok] at h
    obtain ⟨⟨e, sched⟩, hsource, h⟩ := h
    obtain rfl := Except.ok.inj h
    have hone : ({ st.e with op := .stream, streamMinRounds := 1, streamMaxRounds := 1 } : Event) =
        { st.e with op := .stream } := by
      simp [hplain.rounds]
    rw [hone] at hsource
    exact ⟨.stream, by rw [hname]; rfl, readSource_performs (.inl rfl) hsource hplain hbare hs⟩
  split at h
  · next hname =>
    simp only [readEnqueueData, bind_eq_ok] at h
    obtain ⟨⟨e, sched⟩, hsource, h⟩ := h
    obtain rfl := Except.ok.inj h
    exact ⟨.enqueueData, by rw [hname]; rfl, readSource_performs (.inr rfl) hsource hplain hbare hs⟩
  split at h
  · next hname => exact ⟨.getCorrections, by rw [hname]; rfl, readRead_performs rfl h hplain he⟩
  split at h
  · next hname =>
    exact ⟨.getLogicalMeasurements, by rw [hname]; rfl, readRead_performs rfl h hplain he⟩
  split at h
  · next hname => exact ⟨.stream, by rw [hname]; rfl, readStream_performs h hplain hs⟩
  · simp at h

end CudaqQec.Playback
