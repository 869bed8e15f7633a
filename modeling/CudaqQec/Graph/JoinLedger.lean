import CudaqQec.Graph.Join
import Mathlib.Data.Fintype.Basic
import Mathlib.Data.Fintype.Card

/-!
# What a join has filed

The state of a node's joins, told by the deliveries of the shot: `done` those filed, `rest` those still
to come, `all` both. A live entry is one of three kinds.

* Its fire is queued.
* It is `Open`: what is missing of it was not delivered yet.
* It is a `Ghost`, made anew by a late absence after its instance was fired or dropped and forgotten. It
  lacks a required input of which no value is still to come, so it neither fires nor counts.

`JoinShot.Ledger` says so, and `Ledger.claim`, `Ledger.fileAt` and their like that one call keeps it.
-/

namespace CudaqQec

variable {n : Nat} {V : Type}

/-! ## What producers publish -/

/-- The producer of input `i` published `v` at index `m`. -/
def Published (ds : List (JoinDelivery n V)) (i : Fin n) (m : Int) (v : V) : Prop :=
  ∃ d ∈ ds, d.slot = i ∧ d.index = m ∧ d.value = some v

/-- A value or an absence of input `i` came from index `m`. -/
def Delivered (ds : List (JoinDelivery n V)) (i : Fin n) (m : Int) : Prop :=
  ∃ d ∈ ds, d.slot = i ∧ d.index = m

theorem Published.delivered {ds : List (JoinDelivery n V)} {i : Fin n} {m : Int} {v : V}
    (h : Published ds i m v) : Delivered ds i m := by
  obtain ⟨d, hd, hslot, hindex, -⟩ := h
  exact ⟨d, hd, hslot, hindex⟩

theorem Published.mono {ds es : List (JoinDelivery n V)} {i : Fin n} {m : Int} {v : V}
    (h : Published ds i m v) (hsub : ∀ d ∈ ds, d ∈ es) : Published es i m v := by
  obtain ⟨d, hd, hrest⟩ := h
  exact ⟨d, hsub d hd, hrest⟩

theorem Delivered.mono {ds es : List (JoinDelivery n V)} {i : Fin n} {m : Int}
    (h : Delivered ds i m) (hsub : ∀ d ∈ ds, d ∈ es) : Delivered es i m := by
  obtain ⟨d, hd, hrest⟩ := h
  exact ⟨d, hsub d hd, hrest⟩

namespace DroppedInstances

variable {d : DroppedInstances} {j k : Nat}

theorem mem_of_contains (h : d.contains k = true) : some k ∈ d.ring :=
  List.mem_of_getElem? (of_decide_eq_true h)

theorem mem_add (h : some j ∈ (d.add k).ring) : some j ∈ d.ring ∨ j = k := by
  rcases List.mem_or_eq_of_mem_set h with h | h
  · exact .inl h
  · exact .inr (Option.some.inj h)

theorem mem_foldl_add {ks : List Nat} (h : some j ∈ (ks.foldl add d).ring) :
    some j ∈ d.ring ∨ j ∈ ks := by
  induction ks generalizing d with
  | nil => exact .inl h
  | cons k ks ih =>
    rcases ih h with h | h
    · rcases mem_add h with h | rfl
      · exact .inl h
      · exact .inr (List.mem_cons_self ..)
    · exact .inr (List.mem_cons_of_mem _ h)

theorem mem_grow {size : Nat} (h : some j ∈ (d.grow size).ring) : some j ∈ d.ring := by
  rcases mem_foldl_add h with h | h
  · exact absurd (List.eq_of_mem_replicate h) (Option.some_ne_none j)
  · rw [List.mem_insertionSort, List.mem_filterMap] at h
    obtain ⟨_, hmem, rfl⟩ := h
    exact hmem

end DroppedInstances

namespace JoinNode

variable (node : JoinNode)

/-! ## Instances -/

def source (k : Nat) (i : Fin node.inputs) : Int := k + node.offset i

/-- The producers kept their side: indices are not negative, and what came once for an index does not
come again, except that an absence may be told more than once where the node requires an input. -/
structure Disciplined (ds : List (JoinDelivery node.inputs V)) : Prop where
  nonneg : ∀ d ∈ ds, 0 ≤ d.index
  once : ds.Pairwise fun a b => a.slot = b.slot → a.index = b.index →
    a.value = none ∧ b.value = none ∧ ∃ i, node.required i = true

/-- Instance `k` lacks a required input for good. -/
def Lacking (all : List (JoinDelivery node.inputs V)) (k : Nat) : Prop :=
  ∃ i, node.required i = true ∧ ∀ v, ¬ Published all i (node.source k i) v

/-- An input of instance `k` was delivered or announced absent. -/
def Touched (ds : List (JoinDelivery node.inputs V)) (k : Nat) : Prop :=
  ∃ i, Delivered ds i (node.source k i)

/-- The instance exists: something of it came, and every required input did. -/
def Exists (all : List (JoinDelivery node.inputs V)) (k : Nat) : Prop :=
  node.Touched all k ∧ ∀ i, node.required i = true → ∃ v, Published all i (node.source k i) v

variable {node}

namespace Disciplined

variable {all done rest : List (JoinDelivery node.inputs V)} {d : JoinDelivery node.inputs V}
  {i : Fin node.inputs} {m : Int} {v w : V}

theorem same_or_absent (h : node.Disciplined all) {a b : JoinDelivery node.inputs V} (ha : a ∈ all)
    (hb : b ∈ all) (hslot : a.slot = b.slot) (hindex : a.index = b.index) :
    a = b ∨ a.value = none ∧ b.value = none := by
  obtain ⟨p, hp, rfl⟩ := List.mem_iff_getElem.mp ha
  obtain ⟨q, hq, rfl⟩ := List.mem_iff_getElem.mp hb
  have hpair := List.pairwise_iff_getElem.mp h.once
  rcases Nat.lt_trichotomy p q with hlt | rfl | hgt
  · obtain ⟨ha, hb, -⟩ := hpair p q hp hq hlt hslot hindex
    exact .inr ⟨ha, hb⟩
  · exact .inl rfl
  · obtain ⟨hb, ha, -⟩ := hpair q p hq hp hgt hslot.symm hindex.symm
    exact .inr ⟨ha, hb⟩

theorem published_unique (h : node.Disciplined all) (hv : Published all i m v)
    (hw : Published all i m w) : v = w := by
  obtain ⟨a, ha, haslot, haindex, hav⟩ := hv
  obtain ⟨b, hb, hbslot, hbindex, hbw⟩ := hw
  rcases h.same_or_absent ha hb (haslot.trans hbslot.symm) (haindex.trans hbindex.symm) with he | hno
  · rw [he, hbw] at hav
    exact (Option.some.inj hav).symm
  · rw [hno.1] at hav
    cases hav

/-- An announced absence is the whole truth about its index. -/
theorem not_published_of_absent (h : node.Disciplined all) (hd : d ∈ all) (hvalue : d.value = none)
    (hslot : d.slot = i) (hindex : d.index = m) : ¬ Published all i m v := by
  rintro ⟨a, ha, haslot, haindex, hav⟩
  rcases h.same_or_absent ha hd (haslot.trans hslot.symm) (haindex.trans hindex.symm) with he | hno
  · rw [he, hvalue] at hav
    cases hav
  · rw [hno.1] at hav
    cases hav

/-- What follows a delivery at the same index is an absence, as that one was. -/
theorem absent_again (h : node.Disciplined (done ++ rest)) (hd : d ∈ rest)
    (hdone : Delivered done d.slot d.index) :
    d.value = none ∧ (∀ v, ¬ Published done d.slot d.index v) ∧ ∃ i, node.required i = true := by
  obtain ⟨a, ha, hslot, hindex⟩ := hdone
  have hpair := (List.pairwise_append.mp h.once).2.2
  obtain ⟨-, hnone, hreq⟩ := hpair a ha d hd hslot hindex
  refine ⟨hnone, fun v hv => ?_, hreq⟩
  obtain ⟨b, hb, hbslot, hbindex, hbv⟩ := hv
  obtain ⟨hbnone, -, -⟩ := hpair b hb d hd hbslot hbindex
  rw [hbnone] at hbv
  cases hbv

end Disciplined

end JoinNode

/-! ## Entries -/

theorem InputState.isMissing_iff {x : InputState V} : x.isMissing = true ↔ x = .missing := by
  cases x <;> simp [InputState.isMissing]

namespace JoinEntry

def missing (e : JoinEntry n V) : Nat := (Finset.univ.filter fun i => (e.state i).isMissing = true).card

theorem missing_update {e : JoinEntry n V} {i : Fin n} {x : InputState V}
    (hi : e.state i = .missing) (hx : x.isMissing = false) :
    (Finset.univ.filter fun j => (Function.update e.state i x j).isMissing = true).card =
      e.missing - 1 := by
  have herase : (Finset.univ.filter fun j => (Function.update e.state i x j).isMissing = true) =
      (Finset.univ.filter fun j => (e.state j).isMissing = true).erase i := by
    ext j
    rw [Finset.mem_erase, Finset.mem_filter, Finset.mem_filter]
    by_cases he : j = i
    · subst he
      simp [hx]
    · simp [he]
  have hmem : i ∈ Finset.univ.filter fun j => (e.state j).isMissing = true :=
    Finset.mem_filter.mpr ⟨Finset.mem_univ i, by rw [hi]; rfl⟩
  rw [herase, Finset.card_erase_of_mem hmem, missing]

theorem missing_pos {e : JoinEntry n V} {i : Fin n} (hi : e.state i = .missing) : 0 < e.missing :=
  Finset.card_pos.mpr ⟨i, Finset.mem_filter.mpr ⟨Finset.mem_univ i, by rw [hi]; rfl⟩⟩

theorem exists_missing {e : JoinEntry n V} (h : e.missing ≠ 0) : ∃ i, e.state i = .missing := by
  obtain ⟨i, hi⟩ := Finset.card_pos.mp (Nat.pos_of_ne_zero h)
  exact ⟨i, InputState.isMissing_iff.mp (Finset.mem_filter.mp hi).2⟩

end JoinEntry

theorem countP_finRange (p : Fin n → Bool) :
    (List.finRange n).countP p = (Finset.univ.filter fun i => p i = true).card := by
  rw [Fin.univ_def, Finset.card_def, Finset.filter_val, List.countP_eq_length_filter]
  simp

namespace JoinNode

variable (node : JoinNode)

/-! ## What an entry records -/

/-- The entry of instance `k` holds what was delivered, and what it holds is final. -/
structure Records (all done rest : List (JoinDelivery node.inputs V)) (k : Nat)
    (e : JoinEntry node.inputs V) : Prop where
  touched : node.Touched all k
  pending : e.pending = e.missing
  present : ∀ i v, e.state i = .present v → Published done i (node.source k i) v
  absent : ∀ i, e.state i = .absent → node.required i = false ∧
    (∀ v, ¬ Published all i (node.source k i) v) ∧
    (Delivered rest i (node.source k i) → Delivered done i (node.source k i))

/-- Nothing of what is missing was delivered. -/
def Open (done : List (JoinDelivery node.inputs V)) (queued : List Nat) (k : Nat)
    (e : JoinEntry node.inputs V) : Prop :=
  k ∉ queued ∧ 0 < e.pending ∧ ∀ i, e.state i = .missing → ¬ Delivered done i (node.source k i)

/-- A required input is missing, and no value of it is still to come. -/
def Ghost (all rest : List (JoinDelivery node.inputs V)) (queued : List Nat) (k : Nat)
    (e : JoinEntry node.inputs V) : Prop :=
  (k ∈ queued ∨ node.Lacking all k) ∧
    ∃ i, node.required i = true ∧ e.state i = .missing ∧ ∀ v, ¬ Published rest i (node.source k i) v

variable {node} {all done rest : List (JoinDelivery node.inputs V)} {queued : List Nat} {k : Nat}
  {e : JoinEntry node.inputs V}

theorem Records.state_ne_missing (h : node.Records all done rest k e) (hp : e.pending = 0)
    (i : Fin node.inputs) : e.state i ≠ .missing := by
  intro hi
  have := JoinEntry.missing_pos hi
  rw [h.pending] at hp
  omega

/-- An entry that lacks a required input for good is a ghost. -/
theorem Records.ghost_of_lacking (h : node.Records all done rest k e)
    (hsub : ∀ d, d ∈ done ∨ d ∈ rest → d ∈ all) (hlack : node.Lacking all k) :
    node.Ghost all rest queued k e := by
  refine ⟨.inr hlack, ?_⟩
  obtain ⟨i, hreq, hno⟩ := hlack
  refine ⟨i, hreq, ?_, fun v hv => hno v (hv.mono fun d hd => hsub d (.inr hd))⟩
  cases hstate : e.state i with
  | missing => rfl
  | present v => exact absurd ((h.present i v hstate).mono fun d hd => hsub d (.inl hd)) (hno v)
  | absent =>
    have := (h.absent i hstate).1
    rw [hreq] at this
    cases this

theorem Ghost.pending_pos (h : node.Ghost all rest queued k e)
    (hr : node.Records all done rest k e) : 0 < e.pending := by
  obtain ⟨-, i, -, hi, -⟩ := h
  rw [hr.pending]
  exact JoinEntry.missing_pos hi

end JoinNode

end CudaqQec
