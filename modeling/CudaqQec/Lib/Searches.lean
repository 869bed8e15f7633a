import Mathlib.Data.List.Chain
import Mathlib.Data.List.Nodup
import Mathlib.Data.List.Perm.Subperm
import Mathlib.Logic.Relation

/-!
# Searches of a graph, depth first

A search of a relation `r` follows `r` from node to node. What it has finished stands in the order it
was finished in, so that a node leads to nodes finished before it (`Finished`), and there is no cycle
among those. What it is still visiting is a path, and an edge back onto the path closes a cycle.

* `Finished.acyclic`: nothing finished lies on a cycle.
* `IsCycle.of_path`: the cycle an edge back onto the path closes.
* `explore_spec`: a search that only marks what it visits visits what its first node reaches.
-/

namespace CudaqQec.Searches

open Relation

variable {α : Type} {r : α → α → Prop}

/-! ## Cycles -/

/-- A cycle, as the nodes along it with the first repeated at the end. -/
structure IsCycle (r : α → α → Prop) (l : List α) : Prop where
  chain : l.IsChain r
  two_le : 2 ≤ l.length
  closed : l.head? = l.getLast?
  simple : l.dropLast.Nodup

theorem IsCycle.ne_nil {l : List α} (h : IsCycle r l) : l ≠ [] := by
  rintro rfl
  exact absurd h.two_le (by simp)

/-- The node a cycle begins at leads back to itself. -/
theorem IsCycle.exists_transGen {l : List α} (h : IsCycle r l) : ∃ x ∈ l, TransGen r x x := by
  obtain ⟨hchain, htwo, hclosed, -⟩ := h
  match l, htwo with
  | a :: b :: l, _ =>
    refine ⟨a, by simp, ?_⟩
    have hedge : r a b := (List.isChain_cons_cons.mp hchain).1
    have hrest := List.relationReflTransGen_of_exists_isChain (b :: l)
      (List.isChain_cons_cons.mp hchain).2 (by simp)
    have hlast : (b :: l).getLast (by simp) = a := by
      rw [List.getLast?_cons_cons, List.head?_cons, List.getLast?_eq_some_getLast (by simp)] at hclosed
      exact (Option.some.inj hclosed).symm
    rw [hlast] at hrest
    exact .head' hedge hrest

/-- An edge from the end of a path back onto it closes a cycle. -/
theorem IsCycle.of_path [DecidableEq α] {path : List α} {y : α} (hchain : path.IsChain r)
    (hnodup : path.Nodup) (hy : y ∈ path) (hlast : ∀ z ∈ path.getLast?, r z y) :
    IsCycle r (path.dropWhile (· ≠ y) ++ [y]) := by
  obtain ⟨front, back, rfl, hfront⟩ := List.eq_append_cons_of_mem hy
  have hdrop : (front ++ y :: back).dropWhile (· ≠ y) = y :: back := by
    have hall : ∀ a ∈ front, decide (a ≠ y) = true := fun a ha =>
      decide_eq_true fun h => hfront (h ▸ ha)
    rw [List.dropWhile_append_of_pos hall, List.dropWhile_cons_of_neg (by simp)]
  rw [hdrop]
  constructor
  · refine List.IsChain.append (List.IsChain.right_of_append hchain) (by simp) ?_
    intro z hz w hw
    obtain rfl : y = w := by simpa using hw
    exact hlast z (by simpa [List.getLast?_append] using hz)
  · simp
  · rw [List.getLast?_concat]
    rfl
  · rw [List.dropLast_concat]
    exact (List.nodup_append.mp hnodup).2.1

/-! ## What is finished -/

/-- Nodes in the order they were finished in, the last one first: what a node leads to was finished
before it. -/
inductive Finished (r : α → α → Prop) : List α → Prop
  | nil : Finished r []
  | cons {x : α} {done : List α} (fresh : x ∉ done) (leads : ∀ y, r x y → y ∈ done)
      (rest : Finished r done) : Finished r (x :: done)

namespace Finished

variable {done : List α} {x y : α}

theorem closed (h : Finished r done) (hx : x ∈ done) (hxy : r x y) : y ∈ done := by
  induction h with
  | nil => simp at hx
  | @cons z done fresh leads rest ih =>
    rcases List.mem_cons.mp hx with rfl | hx
    · exact List.mem_cons_of_mem _ (leads y hxy)
    · exact List.mem_cons_of_mem _ (ih hx)

theorem closed_reach (h : Finished r done) (hx : x ∈ done) (hxy : ReflTransGen r x y) : y ∈ done := by
  induction hxy with
  | refl => exact hx
  | tail _ hyz ih => exact h.closed ih hyz

theorem acyclic (h : Finished r done) (hx : x ∈ done) : ¬ TransGen r x x := by
  induction h with
  | nil => simp at hx
  | @cons z done fresh leads rest ih =>
    rcases List.mem_cons.mp hx with rfl | hx
    · -- What it leads to was finished before it, and leads to nothing finished after.
      intro hcycle
      obtain ⟨y, hxy, hyx⟩ := TransGen.head'_iff.mp hcycle
      exact fresh (rest.closed_reach (leads y hxy) hyx)
    · exact ih hx

end Finished

/-! ## What a node reaches -/

variable [DecidableEq α]

@[grind =] def exploreAll (explore : α → List α → Option (List α)) : List α → List α → Option (List α)
  | [], visited => some visited
  | y :: ys, visited =>
    if y ∈ visited then exploreAll explore ys visited
    else (explore y visited).bind (exploreAll explore ys)

/-- Visit a node and whatever is not visited yet of what it leads to, as many calls deep as `fuel`
allows. -/
@[grind =] def explore (next : α → List α) : Nat → α → List α → Option (List α)
  | 0, _, _ => none
  | fuel + 1, x, visited => exploreAll (explore next fuel) (next x) (visited.insert x)

/-- What visiting the nodes `start` adds to what is visited: nodes they reach, with all of what these
lead to. -/
structure Explored (next : α → List α) (nodes start visited visited' : List α) : Prop where
  nodup : visited'.Nodup
  among : ∀ x ∈ visited', x ∈ nodes
  grown : visited <:+ visited'
  begun : ∀ x ∈ start, x ∈ visited'
  reached : ∀ y ∈ visited', y ∉ visited → ∃ x ∈ start, ReflTransGen (fun a b => b ∈ next a) x y
  closed : ∀ y ∈ visited', y ∉ visited → ∀ z ∈ next y, z ∈ visited'

/-- What a visit comes to where there is room for `fuel` more nodes. -/
def ExploreSound (next : α → List α) (nodes : List α) (fuel : Nat)
    (explore : α → List α → Option (List α)) : Prop :=
  ∀ (x : α) (visited : List α), visited.Nodup → (∀ y ∈ visited, y ∈ nodes) → x ∈ nodes →
    x ∉ visited → nodes.length < visited.length + fuel →
    ∃ visited', explore x visited = some visited' ∧ Explored next nodes [x] visited visited'

section
variable {next : α → List α} {nodes : List α}

theorem explored_exploreAll {fuel : Nat} {explore : α → List α → Option (List α)}
    (hexplore : ExploreSound next nodes fuel explore) {start visited : List α}
    (hnodup : visited.Nodup) (hamong : ∀ y ∈ visited, y ∈ nodes) (hstart : ∀ y ∈ start, y ∈ nodes)
    (hfuel : nodes.length < visited.length + fuel) :
    ∃ visited', exploreAll explore start visited = some visited' ∧
      Explored next nodes start visited visited' := by
  induction start generalizing visited with
  | nil =>
    exact ⟨visited, rfl, hnodup, hamong, List.suffix_refl _, by simp,
      fun y hy hnot => absurd hy hnot, fun y hy hnot => absurd hy hnot⟩
  | cons x start ih =>
    have hstart' : ∀ y ∈ start, y ∈ nodes := fun y hy => hstart y (List.mem_cons_of_mem _ hy)
    unfold exploreAll
    split
    · next hx =>
      obtain ⟨visited', hrun, h⟩ := ih hnodup hamong hstart' hfuel
      refine ⟨visited', hrun, h.nodup, h.among, h.grown, ?_, ?_, h.closed⟩
      · simpa using ⟨h.grown.subset hx, h.begun⟩
      · intro y hy hnot
        obtain ⟨z, hz, hzy⟩ := h.reached y hy hnot
        exact ⟨z, List.mem_cons_of_mem _ hz, hzy⟩
    -- a node that is new is explored, and the rest of the start from where that ended
    · next hx =>
      obtain ⟨visited₁, hrun₁, h₁⟩ := hexplore x visited hnodup hamong (hstart x List.mem_cons_self)
        hx hfuel
      have hlen := h₁.grown.length_le
      obtain ⟨visited', hrun, h⟩ := ih h₁.nodup h₁.among hstart' (by omega)
      rw [hrun₁, Option.bind_some]
      refine ⟨visited', hrun, h.nodup, h.among, h₁.grown.trans h.grown, ?_, ?_, ?_⟩
      · simpa using ⟨h.grown.subset (h₁.begun x List.mem_cons_self), h.begun⟩
      · intro y hy hnot
        by_cases hy₁ : y ∈ visited₁
        · obtain ⟨z, hz, hzy⟩ := h₁.reached y hy₁ hnot
          exact ⟨x, List.mem_cons_self, List.mem_singleton.mp hz ▸ hzy⟩
        · obtain ⟨z, hz, hzy⟩ := h.reached y hy hy₁
          exact ⟨z, List.mem_cons_of_mem _ hz, hzy⟩
      · intro y hy hnot z hz
        by_cases hy₁ : y ∈ visited₁
        · exact h.grown.subset (h₁.closed y hy₁ hnot z hz)
        · exact h.closed y hy hy₁ z hz

theorem exploreSound_explore (hnext : ∀ x ∈ nodes, ∀ y ∈ next x, y ∈ nodes) (fuel : Nat) :
    ExploreSound next nodes fuel (explore next fuel) := by
  induction fuel with
  | zero =>
    intro x visited hnodup hamong _ _ hfuel
    have := (List.subperm_of_subset hnodup hamong).length_le
    omega
  | succ fuel ih =>
    intro x visited hnodup hamong hx hnot hfuel
    obtain ⟨visited', hrun, h⟩ := explored_exploreAll ih (List.nodup_cons.mpr ⟨hnot, hnodup⟩)
      (by simpa using ⟨hx, hamong⟩) (hnext x hx) (by simp only [List.length_cons]; omega)
    have hx' : x ∈ visited' := h.grown.subset List.mem_cons_self
    refine ⟨visited', ?_, h.nodup, h.among, (List.suffix_cons x visited).trans h.grown, ?_, ?_, ?_⟩
    · rw [explore, List.insert_of_not_mem hnot, hrun]
    · simpa using hx'
    · intro y hy hnot'
      refine ⟨x, by simp, ?_⟩
      by_cases hyx : y = x
      · rw [hyx]
      · obtain ⟨z, hz, hzy⟩ := h.reached y hy (by simp [hyx, hnot'])
        exact .head hz hzy
    · intro y hy hnot' z hz
      by_cases hyx : y = x
      · exact h.begun z (hyx ▸ hz)
      · exact h.closed y hy (by simp [hyx, hnot']) z hz

/-- Visiting a node with nothing visited yet visits just what it reaches, each node once. -/
theorem explore_spec (hnext : ∀ x ∈ nodes, ∀ y ∈ next x, y ∈ nodes) {x : α} (hx : x ∈ nodes) {fuel : Nat}
    (hfuel : nodes.length < fuel) :
    ∃ visited, explore next fuel x [] = some visited ∧ visited.Nodup ∧ (∀ y ∈ visited, y ∈ nodes) ∧
      ∀ y, y ∈ visited ↔ ReflTransGen (fun a b => b ∈ next a) x y := by
  obtain ⟨visited, hrun, h⟩ := exploreSound_explore hnext fuel x [] (by simp) (by simp) hx (by simp)
    (by simpa using hfuel)
  refine ⟨visited, hrun, h.nodup, h.among, fun y => ⟨fun hy => ?_, fun hxy => ?_⟩⟩
  · obtain ⟨z, hz, hzy⟩ := h.reached y hy (by simp)
    exact List.mem_singleton.mp hz ▸ hzy
  · induction hxy with
    | refl => exact h.begun x List.mem_cons_self
    | tail _ hyz ih => exact h.closed _ ih (by simp) _ hyz

end

end CudaqQec.Searches
