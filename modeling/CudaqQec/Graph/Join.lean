import CudaqQec.Basic
import CudaqQec.Lib.HomeTable
import Mathlib.Data.List.FinRange
import Mathlib.Data.List.Sort

/-!
# Inputs joined by index

The executor's side of a node that joins its inputs by index. Input `i` of instance `k` is what its
producer published at index `k + index_offset`. A delivery is filed under the instance it addresses;
once every input of an instance is present or known to be absent, a fire of it is queued. An input is
known absent because its producer index would be negative, because its absence was announced, or
because the shot has ended.

* `JoinNode.deliverIndexed`, `Joins.dropInstance`, `JoinNode.resolveJoins`: what happens under the
  scheduler's lock.
* `JoinShot`, `JoinNode.step`: one node during a shot, with the fires that wait for a worker and those
  that run. Deliveries, starts and ends of fires and flushes interleave freely.
-/

namespace CudaqQec

open Checked

def noIndex : Int := -2 ^ 63

/-- `join_entry::state`, with the value that the entry holds for a present input. -/
inductive InputState (V : Type) where
  | missing
  | present (v : V)
  | absent

namespace InputState

variable {V : Type}

/-! ## The state of an input -/

def isMissing : InputState V → Bool
  | missing => true
  | _ => false

/-- What a fire is handed: the value, or `nullptr`. -/
def value? : InputState V → Option V
  | present v => some v
  | _ => none

end InputState

/-- What a used `join_entry` holds for its instance. -/
structure JoinEntry (n : Nat) (V : Type) where
  pending : Nat
  state : Fin n → InputState V
  operation : Nat

/-- `dropped_instances`, with `none` where the ring is empty. -/
structure DroppedInstances where
  ring : List (Option Nat)

namespace DroppedInstances

def contains (d : DroppedInstances) (k : Nat) : Bool :=
  decide (d.ring[k % d.ring.length]? = some (some k))

def add (d : DroppedInstances) (k : Nat) : DroppedInstances :=
  ⟨d.ring.set (k % d.ring.length) (some k)⟩

/-- Hold `size` instances, keeping those held now. Of two that share a place the newer one stays. -/
def grow (d : DroppedInstances) (size : Nat) : DroppedInstances :=
  ((d.ring.filterMap id).insertionSort (· ≤ ·)).foldl add ⟨List.replicate size none⟩

end DroppedInstances

/-! ## Entries and fires -/

inductive JoinGrowth where
  | none
  | unreported
  | reported
  deriving DecidableEq

/-- What the scheduler keeps for one node: `joins` with `join_live`, `join_home` and `join_displaced`,
`dropped` and `join_grew`. -/
structure Joins (n : Nat) (V : Type) where
  table : HomeTable (JoinEntry n V)
  dropped : DroppedInstances
  grew : JoinGrowth

/-- A queued `streaming_indexed_fire`. -/
structure IndexedFire where
  index : Nat
  entry : Nat
  operation : Nat

/-- What is pushed: a fire, or the absence of an instance to the node's consumers. -/
inductive JoinEvent where
  | fire (f : IndexedFire)
  | absent (k : Nat)

/-- An event of kind `streaming_edge` for the node. An announced absence has no value. -/
structure JoinDelivery (n : Nat) (V : Type) where
  slot : Fin n
  index : Int
  value : Option V
  fromNode : Nat
  operation : Nat

/-- What is fixed of the node: its number, `join_offsets`, `join_required` and `input_guaranteed`. -/
structure JoinNode where
  nodeIndex : Nat
  inputs : Nat
  offset : Fin inputs → Int
  required : Fin inputs → Bool
  guaranteed : Fin inputs → Nat → Bool

namespace Joins

variable {n : Nat} {V : Type}

/-! ## The table of entries -/

/-- `release_join_locked`. -/
def releaseJoin (s : Joins n V) (index : Nat) : Joins n V :=
  { s with table := s.table.release index }

/-- `drop_instance_locked`: the consumers are told once. -/
def dropInstance (s : Joins n V) (k : Nat) : Joins n V × List JoinEvent :=
  if s.dropped.contains k then (s, [])
  else ({ s with dropped := s.dropped.add k }, [.absent k])

/-- Give instance `k` an entry, growing the table and the ring of dropped instances if all are used. -/
def claimJoin (s : Joins n V) (k : Nat) (entry : JoinEntry n V) : Joins n V :=
  let table := s.table.claim k entry
  if s.table.freeCell k = s.table.size then
    { table := table
      dropped := s.dropped.grow (2 * table.size)
      grew := if s.grew = .none then .unreported else s.grew }
  else { s with table := table }

end Joins

namespace JoinNode

variable (node : JoinNode) {V : Type}

/-! ## Delivering an event -/

def belowZero (k : Nat) (i : Fin node.inputs) : Bool := decide ((k : Int) + node.offset i < 0)

def freshEntry (k : Nat) : JoinEntry node.inputs V where
  pending := (List.finRange node.inputs).countP fun i => !node.belowZero k i
  state := fun i => if node.belowZero k i then .absent else .missing
  operation := 0

def lacksRequired (k : Nat) : Bool :=
  (List.finRange node.inputs).any fun i => node.belowZero k i && node.required i

def describe (slot : Fin node.inputs) (k : Nat) : String :=
  "decoding_task_graph: node " ++ toString node.nodeIndex ++ " input " ++ toString slot.val ++
    " of instance " ++ toString k

/-- `queue_indexed_fire_locked`, once nothing is pending. -/
def complete (s : Joins node.inputs V) (k index : Nat) (entry : JoinEntry node.inputs V) :
    Joins node.inputs V × List JoinEvent :=
  let s := { s with table := s.table.write index entry }
  if entry.pending ≠ 0 then (s, []) else (s, [.fire ⟨k, index, entry.operation⟩])

/-- File what the delivery brought for its input. -/
def fill (s : Joins node.inputs V) (k index : Nat) (entry : JoinEntry node.inputs V)
    (d : JoinDelivery node.inputs V) : Joins node.inputs V × List JoinEvent :=
  match d.value with
  | some v =>
    node.complete s k index { entry with state := Function.update entry.state d.slot (.present v) }
  | none =>
    if node.required d.slot then (s.releaseJoin index).dropInstance k
    else
      node.complete s k index { entry with state := Function.update entry.state d.slot .absent }

/-- A delivery at the entry of its instance, which has one. -/
def fileAt (s : Joins node.inputs V) (k index : Nat) (fresh : Bool)
    (d : JoinDelivery node.inputs V) : Except Error (Joins node.inputs V × List JoinEvent) :=
  let old := (s.table.cells index).content
  let entry := { old with operation := max old.operation d.operation }
  match entry.state d.slot with
  | .present _ => .error (.logicError (node.describe d.slot k ++ " was delivered twice"))
  | .absent =>
    if d.value.isSome then
      .error (.logicError (node.describe d.slot k ++ " was delivered after it was known absent"))
    else if !fresh || entry.pending ≠ 0 then
      .ok ({ s with table := s.table.write index entry }, [])
    else .ok (node.fill s k index entry d)
  | .missing => .ok (node.fill s k index { entry with pending := entry.pending - 1 } d)

def deliverIndexed (s : Joins node.inputs V) (d : JoinDelivery node.inputs V) :
    Except Error (Joins node.inputs V × List JoinEvent) :=
  let instance_ := d.index - node.offset d.slot
  let k := instance_.toNat
  if d.index = noIndex then
    .error (.logicError ("decoding_task_graph: node " ++ toString node.nodeIndex ++
      " joins its inputs by index but received an unindexed value from node " ++
      toString d.fromNode))
  else if instance_ < 0 ∨ s.dropped.contains k then .ok (s, [])
  else if s.table.find k = s.table.size then
    let index := s.table.freeCell k
    let s := s.claimJoin k (node.freshEntry k)
    if node.lacksRequired k then .ok ((s.releaseJoin index).dropInstance k)
    else node.fileAt s k index true d
  else node.fileAt s k (s.table.find k) false d

/-! ## Resolving what is left -/

def closeEntry (entry : JoinEntry node.inputs V) : JoinEntry node.inputs V :=
  { entry with
    pending := 0
    state := fun i => if (entry.state i).isMissing then .absent else entry.state i }

/-- The first input that was lost on its way: its producer instance exists whenever this one does. -/
def lostInput? (k : Nat) (entry : JoinEntry node.inputs V) : Option (Fin node.inputs) :=
  (List.finRange node.inputs).find? fun i => (entry.state i).isMissing && node.guaranteed i k

def neverArrived (k : Nat) (slot : Fin node.inputs) : Error :=
  .runtimeError (node.describe slot k ++ " never arrived, though its producer instance exists")

/-- The loop of `resolve_joins_locked`, with `free` of the record's `slots` events free. It stops, and
says so, when half of them are queued. -/
@[grind =] def resolveScan (slots : Nat) : List Nat → Nat → Joins node.inputs V →
    Except Error (Joins node.inputs V × List IndexedFire × Bool)
  | [], _, s => .ok (s, [], false)
  | index :: scan, free, s =>
    let cell := s.table.cells index
    if !cell.used || cell.content.pending = 0 then resolveScan slots scan free s
    else if free ≤ slots / 2 then .ok (s, [], true)
    else if (List.finRange node.inputs).any fun i =>
        (cell.content.state i).isMissing && node.required i then
      resolveScan slots scan free (s.releaseJoin index)
    else
      match node.lostInput? cell.key cell.content with
      | some i => .error (node.neverArrived cell.key i)
      | none => do
        let entry := node.closeEntry cell.content
        let (s, fires, more) ←
          resolveScan slots scan (free - 1) { s with table := s.table.write index entry }
        return (s, ⟨cell.key, index, entry.operation⟩ :: fires, more)

/-- `resolve_joins_locked`: the used entries in table order. -/
def resolveJoins (slots free : Nat) (s : Joins node.inputs V) :
    Except Error (Joins node.inputs V × List IndexedFire × Bool) :=
  node.resolveScan slots (s.table.live.insertionSort (· ≤ ·)) free s

end JoinNode

/-! ## A shot -/

/-- One node during a shot. `queued` lists the instances of which a fire was queued, and `fired` what
each started fire was handed. `resolved` says that the last flush left nothing to a later one. -/
structure JoinShot (n : Nat) (V : Type) where
  joins : Joins n V
  waiting : List IndexedFire
  running : List IndexedFire
  queued : List Nat
  fired : List (Nat × (Fin n → Option V))
  resolved : Bool

inductive JoinStep (n : Nat) (V : Type) where
  | deliver (d : JoinDelivery n V)
  | start (place : Nat)
  | finish (place : Nat)
  | flush (slots free : Nat)

def JoinEvent.fire? : JoinEvent → Option IndexedFire
  | fire f => some f
  | absent _ => none

namespace JoinShot

variable {n : Nat} {V : Type}

def begin (s : Joins n V) : JoinShot n V := ⟨s, [], [], [], [], false⟩

def queue (s : JoinShot n V) (joins : Joins n V) (fires : List IndexedFire) : JoinShot n V :=
  { s with
    joins := joins
    waiting := s.waiting ++ fires
    queued := s.queued ++ fires.map IndexedFire.index }

/-- `execute_indexed_fire` begins for a waiting fire: it reads the entry's inputs. -/
def start (s : JoinShot n V) (place : Nat) : JoinShot n V :=
  match s.waiting[place]? with
  | none => s
  | some f =>
    { s with
      waiting := s.waiting.eraseIdx place
      running := s.running ++ [f]
      fired := s.fired ++
        [(f.index, fun i => ((s.joins.table.cells f.entry).content.state i).value?)] }

/-- `finish_locked` for a running fire: it frees the entry. -/
def finish (s : JoinShot n V) (place : Nat) : JoinShot n V :=
  match s.running[place]? with
  | none => s
  | some f =>
    { s with
      joins := s.joins.releaseJoin f.entry
      running := s.running.eraseIdx place }

end JoinShot

namespace JoinNode

variable (node : JoinNode) {V : Type}

def step (s : JoinShot node.inputs V) : JoinStep node.inputs V →
    Except Error (JoinShot node.inputs V)
  | .deliver d => do
    let (joins, events) ← node.deliverIndexed s.joins d
    return s.queue joins (events.filterMap JoinEvent.fire?)
  | .start place => .ok (s.start place)
  | .finish place => .ok (s.finish place)
  | .flush slots free => do
    let (joins, fires, more) ← node.resolveJoins slots free s.joins
    return { s.queue joins fires with resolved := !more }

def run (s : JoinShot node.inputs V) (steps : List (JoinStep node.inputs V)) :
    Except Error (JoinShot node.inputs V) :=
  steps.foldlM node.step s

end JoinNode

end CudaqQec
