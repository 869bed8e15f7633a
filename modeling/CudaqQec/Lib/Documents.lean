import Mathlib

/-!
# Documents

A document of scalars, sequences and mappings, as a reader composes it and a writer lays it out. A
scalar is its text, but a numeral in floating point is its digits and its exponent. A mapping is written
entry by entry, and an entry that is optional may be left out.

* `lookup_entryOf`, `lookup_entryOf_append`: what is read under a key.
* `sublist_entryOf_append`: the keys stand in the order in which they are written.
-/

namespace CudaqQec.Document

inductive Scalar where
  | text (s : String)
  | decimal (digits exponent : Int)
  deriving DecidableEq, Repr

/-- A node; an empty value is `null`. -/
inductive Node where
  | null
  | scalar (s : Scalar)
  | seq (items : List Node)
  | map (entries : List (String × Node))

def Scalar.string : Scalar → String
  | .text s => s
  | .decimal digits exponent => toString digits ++ "e" ++ toString exponent

namespace Node

/-- What stands in a sequence; an empty value is an empty one. -/
def items? : Node → Option (List Node)
  | .null => some []
  | .seq items => some items
  | _ => none

/-- What stands in a mapping, no key twice. -/
def entries? : Node → Option (List (String × Node))
  | .null => some []
  | .map entries => if (entries.map Prod.fst).Nodup then some entries else none
  | _ => none

def mapping? (keys : List String) (node : Node) : Option (List (String × Node)) :=
  node.entries?.filter fun entries => entries.all fun entry => entry.1 ∈ keys

def ofInt (n : Int) : Node := .scalar (.text (toString n))

def ofBool (b : Bool) : Node := .scalar (.text (if b then "true" else "false"))

def int? : Node → Option Int
  | .scalar (.text s) => s.toInt?
  | _ => none

def bool? : Node → Option Bool
  | .scalar (.text "true") => some true
  | .scalar (.text "false") => some false
  | _ => none

def string? : Node → Option String
  | .scalar s => some s.string
  | _ => none

def enum? {α : Type*} (cases : List (String × α)) (node : Node) : Option α :=
  node.string?.bind fun word => cases.lookup word

def ofEnum {α : Type*} [DecidableEq α] (cases : List (String × α)) (a : α) : Node :=
  .scalar (.text ((cases.find? fun c => c.2 = a).elim "" Prod.fst))

-- The one lemma here that no narrower import than the whole library has.
@[simp] theorem int?_ofInt (n : Int) : (ofInt n).int? = some n := Int.toInt?_repr n

@[simp] theorem string?_text (s : String) : (scalar (.text s)).string? = some s := rfl

/-- A key that stands once is found. -/
theorem lookup_of_mem {α : Type*} {word : String} {a : α} {cases : List (String × α)}
    (hwords : (cases.map Prod.fst).Nodup) (hmem : (word, a) ∈ cases) : cases.lookup word = some a := by
  induction cases with
  | nil => cases hmem
  | cons c cases ih =>
    obtain ⟨word', a'⟩ := c
    rw [List.map_cons, List.nodup_cons] at hwords
    rcases List.mem_cons.mp hmem with heq | hrest
    · cases heq
      exact List.lookup_cons_self
    · have hne : word ≠ word' := by
        intro heq
        subst heq
        exact hwords.1 (List.mem_map.mpr ⟨_, hrest, rfl⟩)
      rw [List.lookup_cons, beq_false_of_ne hne]
      exact ih hwords.2 hrest

/-- Words that are all different tell the values apart. -/
theorem enum?_ofEnum {α : Type*} [DecidableEq α] {cases : List (String × α)} {a : α}
    (hwords : (cases.map Prod.fst).Nodup) (ha : a ∈ cases.map Prod.snd) :
    enum? cases (ofEnum cases a) = some a := by
  obtain ⟨c, hc⟩ : ∃ c, cases.find? (fun c => c.2 = a) = some c := by
    obtain ⟨c, hmem, rfl⟩ := List.mem_map.mp ha
    exact Option.isSome_iff_exists.mp (List.find?_isSome.mpr ⟨c, hmem, by simp⟩)
  have hvalue : c.2 = a := by simpa using List.find?_some hc
  subst hvalue
  rw [ofEnum, hc, enum?, string?_text, Option.bind_some, Option.elim_some]
  exact lookup_of_mem hwords (List.mem_of_find?_eq_some hc)

end Node

/-! ## Entries -/

section Entries

variable {key key' : String} {value : Option Node} {rest : List (String × Node)}

def entryOf (key : String) : Option Node → List (String × Node)
  | none => []
  | some node => [(key, node)]

theorem lookup_entryOf_append :
    (entryOf key value ++ rest).lookup key' =
      if key' = key then value <|> rest.lookup key else rest.lookup key' := by
  cases value with
  | none => by_cases h : key' = key <;> simp [entryOf, h]
  | some node =>
    by_cases h : key' = key
    · simp [entryOf, h]
    · simp [entryOf, List.lookup_cons, h, beq_false_of_ne h]

theorem lookup_entryOf :
    (entryOf key value).lookup key' = if key' = key then value else none := by
  rw [← List.append_nil (entryOf key value), lookup_entryOf_append]
  simp

theorem sublist_entryOf : ((entryOf key value).map Prod.fst).Sublist [key] := by
  cases value with
  | none => exact List.nil_sublist _
  | some node => exact List.Sublist.refl _

theorem foldlM_entryOf {m : Type → Type} [Monad m] [LawfulMonad m] {β : Type}
    (f : β → String × Node → m β) (b : β) (node : Node) :
    (entryOf key (some node)).foldlM f b = f b (key, node) := by
  simp [entryOf]

/-- Keys that are written in order stand in that order. -/
theorem sublist_entryOf_append {keys : List String} (h : (rest.map Prod.fst).Sublist keys) :
    ((entryOf key value ++ rest).map Prod.fst).Sublist (key :: keys) := by
  cases value with
  | none => exact h.cons key
  | some node => exact h.cons_cons key

/-- A mapping whose keys stand in an order without repetition is read as it was written. -/
theorem mapping?_map {entries : List (String × Node)} {keys : List String} (hkeys : keys.Nodup)
    (h : (entries.map Prod.fst).Sublist keys) : (Node.map entries).mapping? keys = some entries := by
  have hnodup : (entries.map Prod.fst).Nodup := hkeys.sublist h
  have hall : (entries.all fun entry => entry.1 ∈ keys) = true := by
    rw [List.all_eq_true]
    intro entry hentry
    exact decide_eq_true (h.subset (List.mem_map_of_mem hentry))
  rw [Node.mapping?, Node.entries?, if_pos hnodup, Option.filter_some, if_pos hall]

end Entries

end CudaqQec.Document
