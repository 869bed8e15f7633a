import CudaqQec.Lib.Delimited
import CudaqQec.Realtime.Frame

/-!
# Playback schedules

`parse`: a schedule is read line by line, `<trigger> <op> [key=value...]`. A line's operands are split
once, and every accessor marks what it reads, so that whatever is left is an operand the operation does
not take. Bits go to shared arenas and names are interned: an event holds offsets and indices only.

A character stands for a byte, and `isspace` and `isdigit` are those of the C locale.
-/

namespace CudaqQec.Playback

open Checked

def kNoSource : Nat := 2 ^ 32 - 1

def kNoSignal : Nat := 2 ^ 32 - 1

abbrev Operation := Realtime.Operation

def Operation.readsResult (op : Operation) : Bool :=
  op = .getCorrections ∨ op = .getLogicalMeasurements

inductive Trigger where
  | tick
  | delta
  deriving DecidableEq

/-- `event`: one line of a schedule. -/
structure Event where
  trig : Trigger := .tick
  deadlineNs : Nat := 0
  decoderId : Nat := 0
  op : Operation := .reset
  sourceId : Nat := kNoSource
  syndromeOffset : Nat := 0
  syndromeCount : Nat := 0
  expectedOffset : Nat := 0
  expectedCount : Nat := 0
  returnSize : Nat := 0
  first : Nat := 0
  reset : Bool := true
  signalId : Nat := kNoSignal
  afterSignalId : Nat := kNoSignal
  untilSignalId : Nat := kNoSignal
  streamEveryTicks : Nat := 1
  streamMinRounds : Nat := 1
  streamMaxRounds : Nat := 1
  deriving DecidableEq

def Event.syndromes (e : Event) : Nat × Nat := (e.syndromeOffset, e.syndromeCount)

def Event.expectedBits (e : Event) : Nat × Nat := (e.expectedOffset, e.expectedCount)

structure Schedule where
  events : List Event := []
  syndromeArena : List Bool := []
  expectedArena : List Bool := []
  decoders : List Nat := []
  signalNames : List (List Char) := []
  tickNs : Nat := 1000
  deriving DecidableEq

/-! ## Tokens -/

def invalid (what : String) : Error := .invalidArgument what

def isSpace (c : Char) : Bool :=
  c = ' ' ∨ c = '\t' ∨ c = '\n' ∨ c = '\x0b' ∨ c = '\x0c' ∨ c = '\r'

/-- `tokenize`: split on runs of whitespace, in front of a comment. -/
def tokenize (line : List Char) : List (List Char) :=
  ((line.takeWhile (· ≠ '#')).splitOnP isSpace).filter (· ≠ [])

def isDigits (s : List Char) : Bool := s ≠ [] ∧ s.all Char.isDigit

def number (s : List Char) : Nat := s.foldl (fun n c => 10 * n + (c.toNat - 48)) 0

/-- `parse_uint`, of a type with `bits` bits. -/
def parseUint (bits : Nat) (s : List Char) (what : String) : Except Error Nat := do
  throwIf (isDigits s = false)
    (invalid (what ++ " '" ++ String.ofList s ++ "' is not a valid integer"))
  throwIf (2 ^ bits ≤ number s)
    (invalid (what ++ " '" ++ String.ofList s ++ "' does not fit in " ++
      (if bits = 32 then "32" else "64") ++ " bits"))
  return number s

def parseU32 (s : List Char) (what : String) : Except Error Nat := parseUint 32 s what

def parseU64 (s : List Char) (what : String) : Except Error Nat := parseUint 64 s what

def isBit (c : Char) : Bool := c = '0' ∨ c = '1'

def appendBits (arena : List Bool) (s : List Char) (what : String) : Except Error (List Bool) := do
  throwIf (s.all isBit = false)
    (invalid ("malformed " ++ what ++ " bit string '" ++ String.ofList s ++
      "': expected only '0'/'1'"))
  return arena ++ s.map (· == '1')

/-! ## Operands -/

/-- A token with an `=`: its key, and its value. -/
def splitOperand (tok : List Char) : Option (String × List Char) :=
  if '=' ∈ tok then
    some (String.ofList (tok.takeWhile (· ≠ '=')), (tok.dropWhile (· ≠ '=')).tail)
  else none

/-- `operands::entry`. -/
structure Operand where
  key : String
  value : List Char
  read : Bool

/-- `operands`: one line's operands, and what has been read of them. -/
structure Operands where
  kv : List Operand := []
  bare : List Char := []
  bareRead : Bool := false

namespace Operands

variable (ops : Operands)

/-- The constructor. -/
@[grind =] def create : List (List Char) → Operands → Except Error Operands
  | [], ops => .ok ops
  | tok :: toks, ops =>
    match splitOperand tok with
    | none => do
      throwIf (ops.bare ≠ [])
        (invalid ("takes at most one operand written without a 'key=', got '" ++
          String.ofList ops.bare ++ "' and '" ++ String.ofList tok ++ "'"))
      create toks { ops with bare := tok }
    | some (key, value) => do
      throwIf (key ∈ ops.kv.map (·.key)) (invalid ("'" ++ key ++ "=' given more than once"))
      create toks { ops with kv := ops.kv ++ [⟨key, value, false⟩] }

def get (key : String) : Option (List Char) := (ops.kv.find? (·.key = key)).map (·.value)

/-- What `value` does: a key stands once. -/
def mark (key : String) : Operands :=
  { ops with kv := ops.kv.map fun o => if o.key = key then { o with read := true } else o }

def markBare : Operands := { ops with bareRead := true }

def uint (bits : Nat) (key : String) (fallback : Nat) : Except Error Nat :=
  match ops.get key with
  | some v => parseUint bits v key
  | none => .ok fallback

@[grind =] def name (key : String) : Except Error (List Char) :=
  match ops.get key with
  | none => .ok []
  | some v => do
    throwIf (v = []) (invalid ("'" ++ key ++ "=' needs a name"))
    return v

def unread : List String := (ops.kv.filter (!·.read)).map (·.key)

def rejectUnread (opName : String) : Except Error Unit := do
  let stray := ops.unread.map (· ++ "=") ++
    if ops.bare ≠ [] ∧ ops.bareRead = false then [String.ofList ops.bare] else []
  throwIf (stray ≠ []) (invalid ("'" ++ opName ++ "' does not take " ++ ", ".intercalate stray))

end Operands

/-! ## One line -/

/-- `intern`: the index of a name, and the names with it. -/
def intern (names : List (List Char)) (name : List Char) : Nat × List (List Char) :=
  match names.findIdx? (· = name) with
  | some i => (u32 i, names)
  | none => (u32 names.length, names ++ [name])

/-- What the triggers of the lines above leave. -/
structure Clock where
  lastTick : Option Nat := none
  sawDelta : Bool := false

def Clock.place (clock : Clock) (tick : Nat) : Except Error Clock := do
  throwIf clock.sawDelta
    (invalid ("tick " ++ toString tick ++ " follows a '+N'/'-' offset, whose duration is only known " ++
      "at run time; once a schedule goes relative it must stay relative"))
  throwIf (clock.lastTick.any (tick < ·))
    (invalid ("a schedule must be written in dispatch order, but tick " ++ toString tick ++
      " follows tick " ++ toString (clock.lastTick.getD 0) ++ "; ticks must be non-decreasing"))
  return { clock with lastTick := some tick }

def triggerDigits (tok : List Char) : Bool × List Char :=
  if tok = ['-'] then (true, ['0'])
  else if tok.head? = some '+' then (true, tok.tail)
  else (false, tok)

def readTrigger (tok : List Char) (tickNs : Nat) (e : Event) (clock : Clock) :
    Except Error (Event × Clock) := do
  let (relative, digits) := triggerDigits tok
  throwIf (isDigits digits = false)
    (invalid ("trigger '" ++ String.ofList tok ++
      "' is neither a tick nor a '+N'/'-' offset from the previous line"))
  let tick ← parseU64 digits "trigger tick"
  let clock ← if relative then .ok { clock with sawDelta := true } else clock.place tick
  throwIf (tick ≠ 0 ∧ 2 ^ 64 ≤ tick * tickNs)
    (invalid ("tick " ++ String.ofList tok ++ " * tick_ns overflows a 64-bit nanosecond offset"))
  return ({ e with
    trig := if relative then .delta else .tick
    deadlineNs := tick * tickNs }, clock)

def readSession (ops : Operands) (known : List Nat) : Except Error Nat := do
  let decoderId ← ops.uint 64 "session" 0
  throwIf (decoderId ∉ known)
    (invalid ("session=" ++ toString decoderId ++ " is not present in the decoder config"))
  return decoderId

/-- `read_signal`: an id, and the names with its name. -/
def readSignal (ops : Operands) (key : String) (names : List (List Char)) :
    Except Error (Nat × List (List Char)) := do
  let name ← ops.name key
  return if name = [] then (kNoSignal, names) else intern names name

/-- `read_source`: a source's id, or the bits of one round. -/
def readSource (ops : Operands) (opName : String) (sched : Schedule) (e : Event) :
    Except Error (Event × Schedule) := do
  let value ← ops.name "source"
  throwIf (value = [])
    (invalid ("'" ++ opName ++ "' requires 'source=N' or 'source=0b<bits>'"))
  if value.take 2 ≠ ['0', 'b'] then
    let id ← parseU32 value "source"
    throwIf (id = kNoSource)
      (invalid ("source=" ++ String.ofList value ++ " is reserved and cannot name a source"))
    return ({ e with sourceId := id }, sched)
  else
    let bits := value.drop 2
    throwIf (bits = []) (invalid ("'" ++ opName ++ "' source=0b needs at least one bit"))
    let arena ← appendBits sched.syndromeArena bits "source"
    return ({ e with
      sourceId := kNoSource
      syndromeOffset := u32 sched.syndromeArena.length
      syndromeCount := u32 bits.length }, { sched with syndromeArena := arena })

/-- `read_bits`, into the arena of expected bits. -/
def readBits (ops : Operands) (what : String) (sched : Schedule) (e : Event) :
    Except Error (Event × Schedule) :=
  if ops.bare = [] then .ok (e, sched)
  else do
    let arena ← appendBits sched.expectedArena ops.bare what
    return ({ e with
      expectedOffset := u32 sched.expectedArena.length
      expectedCount := u32 ops.bare.length }, { sched with expectedArena := arena })

def checkReturnWidth (e : Event) (opName : String) : Except Error Unit :=
  throwIf (e.returnSize ≠ 0 ∧ e.expectedCount ≠ 0 ∧ e.returnSize ≠ e.expectedCount)
    (invalid ("'" ++ opName ++ "' return_size=" ++ toString e.returnSize ++
      " does not match the width of the expected bits (" ++ toString e.expectedCount ++ ")"))

def kDefaultUntilMaxRounds : Nat := 1000

/-- The bounds that are written, each if it is: `rounds=` stands for both. -/
def writtenBounds (ops : Operands) : Except Error (Option Nat × Option Nat) := do
  let rounds ← (ops.get "rounds").mapM (parseU32 · "rounds")
  throwIf (rounds.isSome ∧ (ops.get "min_rounds").isSome)
    (invalid "'stream' cannot combine 'rounds=' with 'min_rounds='")
  let min ← (ops.get "min_rounds").mapM (parseU32 · "min_rounds")
  throwIf (rounds.isSome ∧ (ops.get "max_rounds").isSome)
    (invalid "'stream' cannot combine 'rounds=' with 'max_rounds='")
  let max ← (ops.get "max_rounds").mapM (parseU32 · "max_rounds")
  return (rounds.or min, rounds.or max)

def readRoundBounds (ops : Operands) (e : Event) : Except Error Event := do
  let (min, max) ← writtenBounds ops
  throwIf (e.untilSignalId = kNoSignal ∧ max.isSome ∧ min.isNone)
    (invalid ("'stream' with 'max_rounds=' but no 'until=' has nothing to stop it early -- use " ++
      "'rounds=' for a fixed count"))
  throwIf (e.untilSignalId = kNoSignal ∧ min.isSome ∧ max.isSome ∧ min ≠ max)
    (invalid ("'stream' with 'min_rounds=' and 'max_rounds=' but no 'until=' has nothing to stop " ++
      "it early before max_rounds."))
  let least := min.getD e.streamMinRounds
  let most := max.getD (if e.untilSignalId = kNoSignal then least else kDefaultUntilMaxRounds)
  throwIf (most < least)
    (invalid ("'stream' min_rounds=" ++ toString least ++ " exceeds max_rounds=" ++ toString most))
  throwIf (most = 0) (invalid "'stream' must send at least one round")
  return { e with streamMinRounds := least, streamMaxRounds := most }

/-- What an operation makes of its line: the event, and the schedule and the operands after it. -/
structure LineState where
  e : Event
  sched : Schedule
  ops : Operands

def readEnqueue (opName : String) (st : LineState) : Except Error LineState := do
  let (e, sched) ← readSource st.ops opName st.sched
    { st.e with op := .stream, streamMinRounds := 1, streamMaxRounds := 1 }
  return ⟨e, sched, st.ops.mark "source"⟩

def readEnqueueData (opName : String) (st : LineState) : Except Error LineState := do
  let (e, sched) ← readSource st.ops opName st.sched { st.e with op := .enqueueData }
  return ⟨e, sched, st.ops.mark "source"⟩

/-- The width of a read, and its flags: only a logical read takes `first=`. -/
def readFlags (ops : Operands) (op : Operation) (e : Event) : Except Error (Event × Operands) := do
  let returnSize ← ops.uint 32 "return_size" 0
  let ops := ops.mark "return_size"
  let first ← if op = .getLogicalMeasurements then ops.uint 32 "first" 0 else .ok e.first
  let ops := if op = .getLogicalMeasurements then ops.mark "first" else ops
  let reset ← ops.uint 32 "reset" (if op = .getCorrections then 1 else 0)
  throwIf (1 < reset) (invalid "'reset=' must be 0 or 1")
  return ({ e with op := op, returnSize := returnSize, first := first, reset := reset ≠ 0 },
    ops.mark "reset")

def readRead (opName : String) (op : Operation) (st : LineState) : Except Error LineState := do
  let (e, ops) ← readFlags st.ops op st.e
  let (e, sched) ← readBits ops (opName ++ " expected") st.sched e
  checkReturnWidth e opName
  return ⟨e, sched, ops.markBare⟩

def checkLiteral (e : Event) : Except Error Unit := do
  throwIf (e.sourceId = kNoSource ∧ e.untilSignalId ≠ kNoSignal)
    (invalid ("'stream' with literal syndromes cannot wait on 'until=': its round count is fixed " ++
      "when the schedule is written"))
  throwIf (e.sourceId = kNoSource ∧ e.streamMinRounds ≠ e.streamMaxRounds)
    (invalid ("'stream' with literal syndromes needs a fixed 'rounds=N', not a min/max range"))

def readStream (opName : String) (tickNs : Nat) (st : LineState) : Except Error LineState := do
  let (e, sched) ← readSource st.ops opName st.sched { st.e with op := .stream }
  let every ← st.ops.uint 64 "every" 1
  throwIf (every ≠ 0 ∧ 2 ^ 64 ≤ every * tickNs)
    (invalid "'every=' * tick_ns overflows a 64-bit nanosecond offset")
  let (untilId, names) ← readSignal st.ops "until" sched.signalNames
  let e ← readRoundBounds st.ops { e with streamEveryTicks := every, untilSignalId := untilId }
  checkLiteral e
  throwIf (st.ops.bare ≠ [])
    (invalid ("'stream' does not take a bit string: its syndromes come from 'source=N' (use " ++
      "'enqueue source=0b<bits>' to send literal ones), and an expected correction belongs on the " ++
      "'get_corrections' that reads it"))
  return ⟨e, { sched with signalNames := names },
    (((((st.ops.mark "source").mark "every").mark "until").mark "rounds").mark "min_rounds").mark
      "max_rounds" |>.markBare⟩

def readOperation (opName : String) (tickNs : Nat) (st : LineState) : Except Error LineState :=
  if opName = "reset" then .ok { st with e := { st.e with op := .reset } }
  else if opName = "enqueue" then readEnqueue opName st
  else if opName = "enqueue_data" then readEnqueueData opName st
  else if opName = "get_corrections" then readRead opName .getCorrections st
  else if opName = "get_logical_measurements" then readRead opName .getLogicalMeasurements st
  else if opName = "stream" then readStream opName tickNs st
  else .error (invalid ("unknown operation '" ++ opName ++ "'"))

/-- What the lines read so far leave. -/
structure ParseState where
  sched : Schedule
  clock : Clock := {}

/-- The operands that every operation takes, and its trigger. -/
def readCommon (trigger : List Char) (known : List Nat) (tickNs : Nat) (ops : Operands)
    (st : ParseState) : Except Error (LineState × Clock) := do
  let (e, clock) ← readTrigger trigger tickNs {} st.clock
  let decoderId ← readSession ops known
  let (signalId, names) ← readSignal ops "signal" st.sched.signalNames
  let (afterId, names) ← readSignal ops "after" names
  return (⟨{ e with decoderId := decoderId, signalId := signalId, afterSignalId := afterId },
    { st.sched with signalNames := names },
    ((ops.mark "session").mark "signal").mark "after"⟩, clock)

/-- A line that is not blank. -/
def parseLine (known : List Nat) (tickNs : Nat) (rawLine : List Char) (st : ParseState) :
    List (List Char) → Except Error ParseState
  | trigger :: opToken :: operands => do
    let ops ← Operands.create operands {}
    let (line, clock) ← readCommon trigger known tickNs ops st
    let opName := String.ofList opToken
    let line ← readOperation opName tickNs line
    line.ops.rejectUnread opName
    return ⟨{ line.sched with events := line.sched.events ++ [line.e] }, clock⟩
  | _ => .error (invalid ("expected '<trigger> <op> [key=value...]', got '" ++
      String.ofList rawLine ++ "'"))

/-! ## `parse` -/

def located (lineNumber : Nat) (e : Error) : Error :=
  invalid ("playback schedule, line " ++ toString lineNumber ++ ": " ++ e.what)

def readLine (known : List Nat) (tickNs : Nat) (st : ParseState) (line : List Char × Nat) :
    Except Error ParseState :=
  let tokens := tokenize line.1
  if tokens = [] then .ok st
  else (parseLine known tickNs line.1 st tokens).mapError (located line.2)

def parse (text : List Char) (known : List Nat) (tickNs : Nat) : Except Error Schedule := do
  throwIf (tickNs = 0) (invalid "tick must be positive")
  let st ← ((Delimited.lines '\n' text).zipIdx 1).foldlM (readLine known tickNs)
    { sched := { decoders := known, tickNs := tickNs } }
  return st.sched

end CudaqQec.Playback
