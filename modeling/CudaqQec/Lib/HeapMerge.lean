import Mathlib.Data.List.GetD
import Mathlib.Data.List.Nodup
import Mathlib.Data.List.Sort
import Mathlib.Data.Prod.Lex
import Mathlib.Order.Basic

/-!
# Merging queues by a heap of their fronts

Several queues, each in order, and a heap of those that are not empty, by the rank of what each has in
front. What is taken is the front of the queue at the front of the heap. The standard says of the heap
functions that they keep the elements and the order of a heap, not which of equal elements comes first.

* `Ready.next`: what is taken is least, and the state stays ready.
* `perm_run`, `pairwise_run`: everything is taken once, and in order.
-/

namespace CudaqQec.HeapMerge

variable {α κ : Type} [LinearOrder κ]

/-! ## Heaps -/

/-- A heap with the least key in front: no element is before its parent. -/
def IsHeap (key : Nat → κ) (heap : List Nat) : Prop :=
  ∀ i a b, 0 < i → heap[(i - 1) / 2]? = some a → heap[i]? = some b → key a ≤ key b

theorem IsHeap.front_le {key : Nat → κ} {x : Nat} {rest : List Nat} (h : IsHeap key (x :: rest)) {y : Nat}
    (hy : y ∈ x :: rest) : key x ≤ key y := by
  obtain ⟨i, hi⟩ := List.mem_iff_getElem?.mp hy
  -- up the parents of `y`
  induction i using Nat.strong_induction_on generalizing y with
  | _ i ih =>
    rcases Nat.eq_zero_or_pos i with rfl | hpos
    · cases hi
      exact le_rfl
    · have hlt : (i - 1) / 2 < i := by omega
      have hlen : i < (x :: rest).length := (List.getElem?_eq_some_iff.mp hi).1
      obtain ⟨p, hp⟩ : ∃ p, (x :: rest)[(i - 1) / 2]? = some p :=
        ⟨_, List.getElem?_eq_getElem (by omega)⟩
      exact (ih _ hlt (List.mem_of_getElem? hp) hp).trans (h i p y hpos hp hi)

theorem IsHeap.congr {key key' : Nat → κ} {heap : List Nat} (h : IsHeap key heap)
    (heq : ∀ x ∈ heap, key' x = key x) : IsHeap key' heap := by
  intro i a b hi ha hb
  rw [heq a (List.mem_of_getElem? ha), heq b (List.mem_of_getElem? hb)]
  exact h i a b hi ha hb

/-- `std::make_heap`, `std::pop_heap` and `std::push_heap`, by a key. -/
structure HeapFunctions (κ : Type) [LinearOrder κ] where
  make : (Nat → κ) → List Nat → List Nat
  pop : (Nat → κ) → List Nat → List Nat
  push : (Nat → κ) → List Nat → List Nat
  perm_make : ∀ key l, (make key l).Perm l
  isHeap_make : ∀ key l, IsHeap key (make key l)
  pop_eq : ∀ key x rest, IsHeap key (x :: rest) →
    ∃ rest', pop key (x :: rest) = rest' ++ [x] ∧ rest'.Perm rest ∧ IsHeap key rest'
  perm_push : ∀ key init x, IsHeap key init → (push key (init ++ [x])).Perm (init ++ [x])
  isHeap_push : ∀ key init x, IsHeap key init → IsHeap key (push key (init ++ [x]))

theorem isHeap_of_pairwise {key : Nat → κ} {l : List Nat} (h : l.Pairwise fun a b => key a ≤ key b) :
    IsHeap key l := by
  intro i a b hpos ha hb
  obtain ⟨hi, rfl⟩ := List.getElem?_eq_some_iff.mp ha
  obtain ⟨hj, rfl⟩ := List.getElem?_eq_some_iff.mp hb
  exact List.pairwise_iff_getElem.mp h _ _ hi hj (by omega)

section SortedHeaps

variable (key : Nat → κ)

/-! ## Sorted lists are heaps -/

def sortByKey (l : List Nat) : List Nat := l.insertionSort fun a b => key a ≤ key b

theorem isHeap_sortByKey (l : List Nat) : IsHeap key (sortByKey key l) := by
  have : Std.Total fun a b : Nat => key a ≤ key b := ⟨fun a b => le_total (key a) (key b)⟩
  have : IsTrans Nat fun a b => key a ≤ key b := ⟨fun _ _ _ => le_trans⟩
  exact isHeap_of_pairwise (List.pairwise_insertionSort _ l)

theorem perm_sortByKey (l : List Nat) : (sortByKey key l).Perm l := List.perm_insertionSort _ l

/-- Heaps that are kept sorted. -/
def sortedHeaps : HeapFunctions κ where
  make := sortByKey
  pop key l := sortByKey key l.tail ++ l.head?.toList
  push := sortByKey
  perm_make := perm_sortByKey
  isHeap_make := isHeap_sortByKey
  pop_eq key _ rest _ := ⟨sortByKey key rest, rfl, perm_sortByKey key rest, isHeap_sortByKey key rest⟩
  perm_push key _ _ _ := perm_sortByKey key _
  isHeap_push key _ _ _ := isHeap_sortByKey key _

end SortedHeaps

/-! ## Queues that are merged -/

structure Queues (α : Type) where
  queues : List (List α)
  heap : List Nat

namespace Queues

variable (functions : HeapFunctions κ) [Inhabited κ] (rank : α → κ)

def frontKey (queues : List (List α)) (i : Nat) : κ :=
  ((queues.getD i []).head?.map rank).getD default

def start (queues : List (List α)) : Queues α where
  queues := queues
  heap := functions.make (frontKey rank queues)
    ((List.range queues.length).filter fun i => !(queues.getD i []).isEmpty)

def peek (s : Queues α) : Option (Nat × α) :=
  s.heap.head?.bind fun i => (s.queues.getD i []).head?.map fun a => (i, a)

/-- Take one: the front of the heap is moved to its back, and goes back if its queue has more. -/
def next (s : Queues α) : Option ((Nat × α) × Queues α) :=
  if s.heap = [] then none
  else
    let popped := functions.pop (frontKey rank s.queues) s.heap
    popped.getLast?.bind fun i =>
      match s.queues.getD i [] with
      | [] => none
      | a :: queue =>
        let queues := s.queues.set i queue
        some ((i, a), {
          queues := queues
          heap := if queue.isEmpty then popped.dropLast
            else functions.push (frontKey rank queues) popped })

/-- Take as many. -/
@[grind =] def run : Nat → Queues α → List (Nat × α)
  | 0, _ => []
  | fuel + 1, s =>
    match s.next functions rank with
    | none => []
    | some (a, s) => a :: run fuel s

/-- The state after so many steps. -/
@[grind =] def drop : Nat → Queues α → Queues α
  | 0, s => s
  | n + 1, s =>
    match s.next functions rank with
    | none => s
    | some (_, s) => drop n s

def remaining (queues : List (List α)) : List (Nat × α) :=
  queues.zipIdx.flatMap fun q => q.1.map fun a => (q.2, a)

def order (s : Queues α) : List (Nat × α) := s.run functions rank (remaining s.queues).length

/-- The heap holds the queues that are not empty. -/
structure Ready (s : Queues α) : Prop where
  nodup : s.heap.Nodup
  isHeap : IsHeap (frontKey rank s.queues) s.heap
  mem_heap : ∀ i, i ∈ s.heap ↔ s.queues.getD i [] ≠ []
  sorted : ∀ i, (s.queues.getD i []).Pairwise fun a b => rank a ≤ rank b

/-! ## What is left -/

/-! ## What remains of the queues -/

theorem mem_remaining {queues : List (List α)} {i : Nat} {a : α} :
    (i, a) ∈ remaining queues ↔ a ∈ queues.getD i [] := by
  simp only [remaining, List.mem_flatMap, List.mem_map, Prod.mk.injEq, Prod.exists]
  constructor
  · rintro ⟨q, j, hq, b, hb, rfl, rfl⟩
    rw [List.mem_zipIdx_iff_getElem?] at hq
    rw [List.getD_eq_getElem?_getD, hq]
    exact hb
  · intro ha
    cases hq : queues[i]? with
    | none =>
      rw [List.getD_eq_getElem?_getD, hq] at ha
      cases ha
    | some q =>
      rw [List.getD_eq_getElem?_getD, hq] at ha
      exact ⟨q, i, List.mem_zipIdx_iff_getElem?.mpr hq, a, ha, rfl, rfl⟩

theorem eq_nil_of_remaining_eq_nil {queues : List (List α)} (h : remaining queues = []) :
    ∀ q ∈ queues, q = [] := by
  intro q hq
  obtain ⟨i, hi⟩ := List.mem_iff_getElem?.mp hq
  rw [List.eq_nil_iff_forall_not_mem]
  intro a ha
  have hmem : (i, a) ∈ remaining queues := by
    rw [mem_remaining, List.getD_eq_getElem?_getD, hi]
    exact ha
  rw [h] at hmem
  cases hmem

/-- To take the front of one queue is to take it from what is left. -/
theorem perm_remaining_set {queues : List (List α)} {i : Nat} {a : α} {queue : List α}
    (h : queues.getD i [] = a :: queue) :
    (remaining queues).Perm ((i, a) :: remaining (queues.set i queue)) := by
  suffices hfrom : ∀ n, (queues.zipIdx n).flatMap (fun q => q.1.map fun a => (q.2, a)) |>.Perm
      ((n + i, a) :: ((queues.set i queue).zipIdx n).flatMap fun q => q.1.map fun a => (q.2, a)) by
    simpa [remaining] using hfrom 0
  intro n
  induction queues generalizing i n with
  | nil => cases h
  | cons q queues ih =>
    cases i with
    | zero =>
      rw [List.getD_cons_zero] at h
      subst h
      simp
    | succ i =>
      rw [List.getD_cons_succ] at h
      rw [List.set_cons_succ, List.zipIdx_cons, List.zipIdx_cons, List.flatMap_cons, List.flatMap_cons,
        show n + (i + 1) = n + 1 + i by omega]
      exact ((ih h (n + 1)).append_left _).trans List.perm_middle

/-! ## Taking -/

variable {functions rank}

theorem ready_start {queues : List (List α)}
    (hsorted : ∀ q ∈ queues, q.Pairwise fun a b => rank a ≤ rank b) :
    (start functions rank queues).Ready rank where
  nodup := (functions.perm_make _ _).nodup_iff.mpr (List.nodup_range.filter _)
  isHeap := functions.isHeap_make _ _
  mem_heap := by
    intro i
    rw [start, (functions.perm_make _ _).mem_iff, List.mem_filter, List.mem_range]
    constructor
    · rintro ⟨-, hne⟩ hnil
      rw [hnil] at hne
      cases hne
    · intro hne
      refine ⟨?_, by simpa using hne⟩
      by_contra hle
      exact hne (List.getD_eq_default _ _ (not_lt.mp hle))
  sorted := by
    intro i
    change (queues.getD i []).Pairwise _
    by_cases hi : i < queues.length
    · rw [List.getD_eq_getElem _ _ hi]
      exact hsorted _ (List.getElem_mem hi)
    · rw [List.getD_eq_default _ _ (not_lt.mp hi)]
      exact List.Pairwise.nil

namespace Ready

variable {s : Queues α}

/-! ## A queue at a time -/

theorem remaining_eq_nil (h : s.Ready rank) (hheap : s.heap = []) : remaining s.queues = [] := by
  rw [List.eq_nil_iff_forall_not_mem]
  rintro ⟨i, a⟩ ha
  have hqueue := mem_remaining.mp ha
  have hmem := (h.mem_heap i).mpr (List.ne_nil_of_mem hqueue)
  rw [hheap] at hmem
  cases hmem

variable (functions) in
/-- What a step takes is in front, it is least, and the heap is a heap again. -/
theorem next (h : s.Ready rank) {i : Nat} {rest : List Nat} (hheap : s.heap = i :: rest) :
    ∃ a s', s.peek = some (i, a) ∧ s.next functions rank = some ((i, a), s') ∧ s'.Ready rank ∧
      (remaining s.queues).Perm ((i, a) :: remaining s'.queues) ∧
      ∀ b ∈ remaining s.queues, rank a ≤ rank b.2 := by
  obtain ⟨a, queue, hqueue⟩ : ∃ a queue, s.queues.getD i [] = a :: queue :=
    List.exists_cons_of_ne_nil ((h.mem_heap i).mp (hheap ▸ List.mem_cons_self))
  have hisHeap : IsHeap (frontKey rank s.queues) (i :: rest) := hheap ▸ h.isHeap
  have hnodup : (i :: rest).Nodup := hheap ▸ h.nodup
  obtain ⟨rest', hpop, hperm, hrest⟩ := functions.pop_eq _ _ _ hisHeap
  have hi : i < s.queues.length := by
    by_contra hle
    rw [List.getD_eq_default _ _ (not_lt.mp hle)] at hqueue
    cases hqueue
  have hnot : i ∉ rest' := by
    rw [hperm.mem_iff]
    exact (List.nodup_cons.mp hnodup).1
  have hset : ∀ j, (s.queues.set i queue).getD j [] = if j = i then queue else s.queues.getD j [] := by
    intro j
    by_cases hj : j = i
    · subst hj
      rw [if_pos rfl, List.getD_eq_getElem _ _ (by rwa [List.length_set]), List.getElem_set_self]
    · rw [if_neg hj, List.getD_eq_getElem?_getD, List.getElem?_set_ne (Ne.symm hj),
        ← List.getD_eq_getElem?_getD]
  -- no other queue has another front
  have hkeys : ∀ x ∈ rest', frontKey rank (s.queues.set i queue) x = frontKey rank s.queues x := by
    intro x hx
    have hne : x ≠ i := fun heq => hnot (heq ▸ hx)
    rw [frontKey, frontKey, hset, if_neg hne]
  have hheap' := hrest.congr hkeys
  have hmem : ∀ j, j ∈ rest' ↔ j ≠ i ∧ s.queues.getD j [] ≠ [] := by
    intro j
    rw [hperm.mem_iff, ← h.mem_heap, hheap, List.mem_cons]
    constructor
    · intro hj
      exact ⟨fun heq => (List.nodup_cons.mp hnodup).1 (heq ▸ hj), .inr hj⟩
    · rintro ⟨hne, heq | hj⟩
      · exact absurd heq hne
      · exact hj
  have hsorted : ∀ j, ((s.queues.set i queue).getD j []).Pairwise fun a b => rank a ≤ rank b := by
    intro j
    have hj := h.sorted j
    rw [hset]
    by_cases heq : j = i
    · subst heq
      rw [hqueue] at hj
      rw [if_pos rfl]
      exact hj.of_cons
    · rwa [if_neg heq]
  refine ⟨a, ⟨s.queues.set i queue, if queue.isEmpty then rest'
    else functions.push (frontKey rank (s.queues.set i queue)) (rest' ++ [i])⟩, ?_, ?_, ?_, ?_, ?_⟩
  · rw [peek, hheap, List.head?_cons, Option.bind_some, hqueue]
    rfl
  · rw [Queues.next, if_neg (by simp [hheap]), hheap, hpop]
    simp only [List.getLast?_append_cons, List.getLast?_singleton, Option.bind_some, hqueue,
      List.dropLast_concat]
  · have hnodup' : (rest' ++ [i]).Nodup := by
      rw [List.nodup_append_comm]
      exact List.nodup_cons.mpr ⟨hnot, hperm.nodup_iff.mpr (List.nodup_cons.mp hnodup).2⟩
    cases queue with
    | nil =>
      refine ⟨hperm.nodup_iff.mpr (List.nodup_cons.mp hnodup).2, hheap', ?_, hsorted⟩
      intro j
      change j ∈ rest' ↔ (s.queues.set i []).getD j [] ≠ []
      rw [hset, hmem]
      by_cases hj : j = i <;> simp [hj]
    | cons b queue =>
      refine ⟨(functions.perm_push _ _ _ hheap').nodup_iff.mpr hnodup',
        functions.isHeap_push _ _ _ hheap', ?_, hsorted⟩
      intro j
      change j ∈ functions.push _ _ ↔ (s.queues.set i (b :: queue)).getD j [] ≠ []
      rw [(functions.perm_push _ _ _ hheap').mem_iff, hset, List.mem_append, List.mem_singleton, hmem]
      by_cases hj : j = i <;> simp [hj]
  · exact perm_remaining_set hqueue
  · rintro ⟨j, b⟩ hb
    have hj := mem_remaining.mp hb
    have hfront := hisHeap.front_le (hheap ▸ (h.mem_heap j).mpr (List.ne_nil_of_mem hj))
    have hsorted := h.sorted j
    obtain ⟨c, others, hothers⟩ := List.exists_cons_of_ne_nil (List.ne_nil_of_mem hj)
    rw [frontKey, frontKey, hqueue, hothers] at hfront
    rw [hothers] at hj hsorted
    refine le_trans hfront ?_
    change rank c ≤ rank b
    rcases List.mem_cons.mp hj with rfl | hj
    · exact le_rfl
    · exact List.rel_of_pairwise_cons hsorted hj

/-! ## The order -/

variable (functions) in
/-- Everything is taken once. -/
theorem perm_run (h : s.Ready rank) {fuel : Nat} (hfuel : (remaining s.queues).length ≤ fuel) :
    (s.run functions rank fuel).Perm (remaining s.queues) := by
  induction fuel generalizing s with
  | zero => rw [run, List.eq_nil_of_length_eq_zero (Nat.le_zero.mp hfuel)]
  | succ fuel ih =>
    cases hheap : s.heap with
    | nil =>
      rw [h.remaining_eq_nil hheap, run, Queues.next, if_pos hheap]
    | cons i rest =>
      obtain ⟨a, s', -, hnext, hready, hperm, -⟩ := h.next functions hheap
      have hlen := hperm.length_eq
      rw [List.length_cons] at hlen
      rw [run, hnext]
      exact ((ih hready (by omega)).cons _).trans hperm.symm

variable (functions) in
/-- And in order. -/
theorem pairwise_run (h : s.Ready rank) {fuel : Nat} (hfuel : (remaining s.queues).length ≤ fuel) :
    (s.run functions rank fuel).Pairwise fun a b => rank a.2 ≤ rank b.2 := by
  induction fuel generalizing s with
  | zero => exact List.Pairwise.nil
  | succ fuel ih =>
    cases hheap : s.heap with
    | nil =>
      rw [run, Queues.next, if_pos hheap]
      exact List.Pairwise.nil
    | cons i rest =>
      obtain ⟨a, s', -, hnext, hready, hperm, hle⟩ := h.next functions hheap
      have hlen := hperm.length_eq
      rw [List.length_cons] at hlen
      rw [run, hnext]
      refine List.pairwise_cons.mpr ⟨?_, ih hready (by omega)⟩
      intro b hb
      exact hle b (hperm.mem_iff.mpr (.tail _ ((hready.perm_run functions (by omega)).mem_iff.mp hb)))

variable (functions)

theorem order_eq_nil (h : s.Ready rank) (hheap : s.heap = []) : s.order functions rank = [] := by
  rw [order, h.remaining_eq_nil hheap]
  rfl

theorem perm_order (h : s.Ready rank) : (s.order functions rank).Perm (remaining s.queues) :=
  h.perm_run functions le_rfl

theorem pairwise_order (h : s.Ready rank) :
    (s.order functions rank).Pairwise fun a b => rank a.2 ≤ rank b.2 :=
  h.pairwise_run functions le_rfl

/-- What a step takes comes first. -/
theorem order_eq_cons (h : s.Ready rank) {i : Nat} {rest : List Nat} (hheap : s.heap = i :: rest) :
    ∃ a s', s.peek = some (i, a) ∧ s.next functions rank = some ((i, a), s') ∧ s'.Ready rank ∧
      s.order functions rank = (i, a) :: s'.order functions rank := by
  obtain ⟨a, s', hpeek, hnext, hready, hperm, -⟩ := h.next functions hheap
  refine ⟨a, s', hpeek, hnext, hready, ?_⟩
  rw [order, hperm.length_eq, List.length_cons, run, hnext]
  rfl

/-- After some steps the rest is left. -/
theorem drop (h : s.Ready rank) (n : Nat) :
    (s.drop functions rank n).Ready rank ∧
      (s.drop functions rank n).order functions rank = (s.order functions rank).drop n := by
  induction n generalizing s with
  | zero => exact ⟨h, rfl⟩
  | succ n ih =>
    cases hheap : s.heap with
    | nil =>
      rw [Queues.drop, Queues.next, if_pos hheap, h.order_eq_nil functions hheap, List.drop_nil]
      exact ⟨h, rfl⟩
    | cons i rest =>
      obtain ⟨a, s', -, hnext, hready, horder⟩ := h.order_eq_cons functions hheap
      rw [Queues.drop, hnext, horder, List.drop_succ_cons]
      exact ih hready

end Ready

end Queues

end CudaqQec.HeapMerge
