import CudaqQec.Lib.Searches
import Mathlib.Data.Int.Interval
import Mathlib.Data.List.AList
import Mathlib.Data.List.Sort
import Mathlib.Data.Prod.Lex
import Mathlib.Data.Set.Card

/-!
# Undirected weighted graphs

`graph.cpp` of the core library. A graph maps each node to its neighbours with the weights of the edges,
so an edge stands in two lists, and every operation edits both of them.

* `Simple.apply`: operations keep the two sides in step.
* `undirected`: what the graph's readers return after operations that join no node to itself.
-/

namespace CudaqQec.Cudaqx

open Relation Searches

/-! ## The operations -/

/-- `adjacency_list`: the neighbours of each node and the weights of the edges to them. -/
abbrev AdjacencyList (W : Type) := AList fun _ : Int => List (Int × W)

/-- `graph`. A loop over a map takes its entries in their order, which is the map's own. -/
structure Graph (W : Type) where
  adjacencyList : AdjacencyList W
  nodeWeights : AList fun _ : Int => W

/-- What `node` leads to; nothing where there is no such node. -/
def AdjacencyList.neighbors {W : Type} (adj : AdjacencyList W) (node : Int) : List (Int × W) :=
  (adj.lookup node).getD []

/-- `adjacency_list[node].push_back(entry)`. `operator[]` adds a node that is missing. -/
def AdjacencyList.pushBack {W : Type} (adj : AdjacencyList W) (node : Int) (entry : Int × W) :
    AdjacencyList W := adj.insert node (adj.neighbors node ++ [entry])

def AdjacencyList.modify {W : Type} (adj : AdjacencyList W) (node : Int)
    (f : List (Int × W) → List (Int × W)) : AdjacencyList W :=
  match adj.lookup node with
  | none => adj
  | some entries => adj.insert node (f entries)

def AdjacencyList.modifyAll {W : Type} (adj : AdjacencyList W) (f : List (Int × W) → List (Int × W)) :
    AdjacencyList W :=
  ⟨adj.entries.map (Sigma.map id fun _ => f), by
    have hkeys := adj.nodupKeys
    simpa [List.NodupKeys, List.keys, Function.comp_def, Sigma.map] using hkeys⟩

def withoutNeighbor {W : Type} (node : Int) (entries : List (Int × W)) : List (Int × W) :=
  entries.filter (·.1 ≠ node)

@[grind =] def withWeight {W : Type} (node : Int) (weight : W) : List (Int × W) → List (Int × W)
  | [] => []
  | p :: entries =>
    if p.1 = node then (p.1, weight) :: entries else p :: withWeight node weight entries

namespace Graph

variable {W : Type} (g : Graph W)

def getWeightedNeighbors (node : Int) : List (Int × W) := g.adjacencyList.neighbors node

/-- `get_neighbors`, in ascending order. -/
def getNeighbors (node : Int) : List Int :=
  ((g.getWeightedNeighbors node).map Prod.fst).insertionSort (· ≤ ·)

def edgeExists (i j : Int) : Bool := (g.getWeightedNeighbors i).any (·.1 = j)

def addEdge (u v : Int) (weight : W) : Graph W :=
  if g.edgeExists u v then g
  else { g with adjacencyList := (g.adjacencyList.pushBack u (v, weight)).pushBack v (u, weight) }

def addNode (node : Int) (weight : W) : Graph W :=
  if node ∈ g.adjacencyList then g
  else ⟨g.adjacencyList.insert node [], g.nodeWeights.insert node weight⟩

def setNodeWeight (node : Int) (weight : W) : Graph W :=
  { g with nodeWeights := g.nodeWeights.insert node weight }

def removeEdge (u v : Int) : Graph W :=
  { g with adjacencyList :=
      (g.adjacencyList.modify u (withoutNeighbor v)).modify v (withoutNeighbor u) }

def removeNode (node : Int) : Graph W :=
  ⟨AdjacencyList.modifyAll (g.adjacencyList.erase node) (withoutNeighbor node),
    g.nodeWeights.erase node⟩

/-- `update_edge_weight`, and whether an edge was found on either side. -/
def updateEdgeWeight (u v : Int) (weight : W) : Graph W × Bool :=
  ({ g with adjacencyList :=
      (g.adjacencyList.modify u (withWeight v weight)).modify v (withWeight u weight) },
    g.edgeExists u v || g.edgeExists v u)

/-- `clear`; also what a graph starts as. -/
def empty : Graph W := ⟨∅, ∅⟩

/-! ## The readers -/

/-- `get_edge_weight`, -1 where there is no edge. -/
def getEdgeWeight [One W] [Neg W] (u v : Int) : W :=
  (((g.getWeightedNeighbors u).find? (·.1 = v)).map Prod.snd).getD (-1)

def getNodes : List Int := g.adjacencyList.keys

/-- `get_disconnected_vertices`, in the order of the pairs. -/
def getDisconnectedVertices : List (Int × Int) :=
  ((g.getNodes.flatMap fun ni =>
      (g.getNodes.filter fun nj => ni < nj ∧ g.edgeExists ni nj = false).map fun nj =>
        toLex (ni, nj)).insertionSort (· ≤ ·)).map ofLex

def toInt (x : Int) : Int := Int.bmod x (2 ^ 32)

/-- `num_edges`. The total is an `int`. -/
def numEdges : Int :=
  (g.adjacencyList.entries.foldl (fun total p => toInt (total + p.2.length)) 0).tdiv 2

/-- `is_connected`: `dfs` from the first node visits as many nodes as there are. No call is deeper than
there are nodes. -/
def isConnected : Option Bool :=
  match g.getNodes with
  | [] => some true
  | startNode :: _ =>
    (explore g.getNeighbors (g.getNodes.length + 1) startNode []).map fun visited =>
      visited.length = g.getNodes.length

end Graph

inductive GraphOp (W : Type) where
  | addNode (node : Int) (weight : W)
  | addEdge (u v : Int) (weight : W)
  | removeEdge (u v : Int)
  | removeNode (node : Int)
  | updateEdgeWeight (u v : Int) (weight : W)
  | setNodeWeight (node : Int) (weight : W)
  | clear

def Graph.apply {W : Type} (g : Graph W) : GraphOp W → Graph W
  | .addNode node weight => g.addNode node weight
  | .addEdge u v weight => g.addEdge u v weight
  | .removeEdge u v => g.removeEdge u v
  | .removeNode node => g.removeNode node
  | .updateEdgeWeight u v weight => (g.updateEdgeWeight u v weight).1
  | .setNodeWeight node weight => g.setNodeWeight node weight
  | .clear => .empty

/-- The same maps, with their entries in another order. -/
def Graph.Reordered {W : Type} (g g' : Graph W) : Prop :=
  g.adjacencyList.entries.Perm g'.adjacencyList.entries ∧
    g.nodeWeights.entries.Perm g'.nodeWeights.entries

/-- The graphs that operations meeting a condition lead to. Every operation may reorder the maps. -/
inductive Reachable {W : Type} (ok : Graph W → GraphOp W → Prop) : Graph W → Prop
  | start : Reachable ok .empty
  | step {g g' : Graph W} {op : GraphOp W} (before : Reachable ok g) (meets : ok g op)
      (reordered : (g.apply op).Reordered g') : Reachable ok g'

variable {W : Type}

/-! ## Neighbours after an operation -/

namespace AdjacencyList

variable {adj : AdjacencyList W} {node x : Int}

theorem mem_of_mem_neighbors {p : Int × W} (h : p ∈ adj.neighbors node) : node ∈ adj := by
  rw [← AList.lookup_isSome]
  unfold neighbors at h
  cases hl : adj.lookup node with
  | none => simp [hl] at h
  | some entries => rfl

@[simp] theorem neighbors_empty : neighbors (∅ : AdjacencyList W) x = [] := by simp [neighbors]

theorem neighbors_insert (entries : List (Int × W)) :
    neighbors (adj.insert node entries) x = if x = node then entries else adj.neighbors x := by
  unfold neighbors
  split
  · next hx => rw [hx, AList.lookup_insert, Option.getD_some]
  · next hx => rw [AList.lookup_insert_ne hx]

@[simp] theorem neighbors_pushBack (entry : Int × W) :
    (adj.pushBack node entry).neighbors x =
      if x = node then adj.neighbors node ++ [entry] else adj.neighbors x :=
  neighbors_insert _

theorem neighbors_modify {f : List (Int × W) → List (Int × W)} (hf : f [] = []) :
    (adj.modify node f).neighbors x =
      if x = node then f (adj.neighbors node) else adj.neighbors x := by
  unfold modify
  split
  · next hl =>
    split
    · next hx =>
      subst hx
      simp [neighbors, hl, hf]
    · rfl
  · next entries hl =>
    have hentries : adj.neighbors node = entries := by simp [neighbors, hl]
    rw [neighbors_insert, hentries]

@[simp] theorem neighbors_erase :
    neighbors (adj.erase node) x = if x = node then [] else adj.neighbors x := by
  unfold neighbors
  split
  · next hx => rw [hx, AList.lookup_erase, Option.getD_none]
  · next hx => rw [AList.lookup_erase_ne hx]

theorem neighbors_modifyAll {f : List (Int × W) → List (Int × W)} (hf : f [] = []) :
    (adj.modifyAll f).neighbors x = f (adj.neighbors x) := by
  have hlookup : (adj.modifyAll f).lookup x = (adj.lookup x).map f :=
    @List.dlookup_map₂ Int _ _ _ adj.entries (fun _ => f) x
  unfold neighbors
  rw [hlookup]
  cases adj.lookup x with
  | none => exact hf.symm
  | some entries => rfl

end AdjacencyList

/-! ## Both sides of an edge -/

/-- Neighbour lists that agree: an edge stands on both sides with one weight, no neighbour stands
twice, and no node is its own neighbour. -/
structure Simple (neighbors : Int → List (Int × W)) : Prop where
  symm : ∀ {u v w}, (v, w) ∈ neighbors u → (u, w) ∈ neighbors v
  nodup : ∀ u, ((neighbors u).map Prod.fst).Nodup
  loopless : ∀ {u v w}, (v, w) ∈ neighbors u → v ≠ u

def Joined (neighbors : Int → List (Int × W)) (u v : Int) : Prop := ∃ w, (v, w) ∈ neighbors u

section
variable {entries : List (Int × W)} {node x : Int} {weight w : W}

@[simp] theorem mem_withoutNeighbor :
    (x, w) ∈ withoutNeighbor node entries ↔ (x, w) ∈ entries ∧ x ≠ node := by
  simp [withoutNeighbor]

theorem nodup_withoutNeighbor (h : (entries.map Prod.fst).Nodup) :
    ((withoutNeighbor node entries).map Prod.fst).Nodup :=
  h.sublist (List.filter_sublist.map _)

@[simp] theorem map_fst_withWeight :
    (withWeight node weight entries).map Prod.fst = entries.map Prod.fst := by
  induction entries with
  | nil => rfl
  | cons p entries ih =>
    unfold withWeight
    split <;> simp [ih]

theorem mem_withWeight (h : (entries.map Prod.fst).Nodup) :
    (x, w) ∈ withWeight node weight entries ↔
      if x = node then w = weight ∧ ∃ w', (node, w') ∈ entries else (x, w) ∈ entries := by
  induction entries with
  | nil => simp [withWeight]
  | cons p entries ih =>
    obtain ⟨y, c⟩ := p
    obtain ⟨hnot, hnodup⟩ : (∀ w', (y, w') ∉ entries) ∧ (entries.map Prod.fst).Nodup := by
      simpa using h
    unfold withWeight
    by_cases hy : y = node
    · subst hy
      by_cases hx : x = y
      · subst hx
        simp [hnot w]
      · simp [hx]
    · simp [hy, ih hnodup]
      by_cases hx : x = node
      · subst hx
        simp [Ne.symm hy]
      · simp [hx]

end

namespace Simple

variable {nb nb' : Int → List (Int × W)} {u v x y : Int} {weight : W}

theorem joined_symm (h : Simple nb) : Joined nb u v ↔ Joined nb v u :=
  ⟨fun ⟨w, hw⟩ => ⟨w, h.symm hw⟩, fun ⟨w, hw⟩ => ⟨w, h.symm hw⟩⟩

/-- Lists that lose edges, each on both sides. -/
theorem of_kept (h : Simple nb) (keep : Int → Int → Prop) (hkeep : ∀ {x y}, keep x y → keep y x)
    (hmem : ∀ {x y c}, (y, c) ∈ nb' x ↔ (y, c) ∈ nb x ∧ keep x y)
    (hnodup : ∀ x, ((nb' x).map Prod.fst).Nodup) : Simple nb' where
  symm {x y c} hc := by
    obtain ⟨hc, hkept⟩ := hmem.mp hc
    exact hmem.mpr ⟨h.symm hc, hkeep hkept⟩
  nodup := hnodup
  loopless {x y c} hc := h.loopless (hmem.mp hc).1

end Simple

namespace Graph

variable {g g' : Graph W} {u v x y node : Int} {weight w : W}

theorem edgeExists_iff : g.edgeExists u v = true ↔ Joined g.getWeightedNeighbors u v := by
  simp [edgeExists, Joined]

theorem neighbors_addEdge (hnew : g.edgeExists u v = false) (hne : u ≠ v) :
    (g.addEdge u v weight).getWeightedNeighbors x =
      if x = u then g.getWeightedNeighbors u ++ [(v, weight)]
      else if x = v then g.getWeightedNeighbors v ++ [(u, weight)]
      else g.getWeightedNeighbors x := by
  simp only [addEdge, hnew, getWeightedNeighbors, AdjacencyList.neighbors_pushBack,
    Bool.false_eq_true, if_false, if_neg hne.symm]
  by_cases hx : x = v
  · simp [hx, hne.symm]
  · simp [hx]

theorem mem_neighbors_addEdge (hnew : g.edgeExists u v = false) (hne : u ≠ v) :
    (y, w) ∈ (g.addEdge u v weight).getWeightedNeighbors x ↔
      (y, w) ∈ g.getWeightedNeighbors x ∨ w = weight ∧ (x = u ∧ y = v ∨ x = v ∧ y = u) := by
  rw [neighbors_addEdge hnew hne]
  by_cases hu : x = u
  · subst hu
    simp [hne, and_comm]
  · by_cases hv : x = v
    · subst hv
      simp [hu, and_comm]
    · simp [hu, hv]

theorem simple_addEdge (h : Simple g.getWeightedNeighbors) (hne : u ≠ v) :
    Simple (g.addEdge u v weight).getWeightedNeighbors := by
  cases hnew : g.edgeExists u v with
  | true =>
    have hsame : g.addEdge u v weight = g := by simp [addEdge, hnew]
    rwa [hsame]
  | false =>
    have hnot : ¬ Joined g.getWeightedNeighbors u v := by simp [← edgeExists_iff, hnew]
    refine ⟨?_, ?_, ?_⟩
    · intro x y c hc
      rw [mem_neighbors_addEdge hnew hne] at hc ⊢
      exact hc.imp h.symm fun ⟨hc, hends⟩ => ⟨hc, by tauto⟩
    · intro x
      have hpush : ∀ {x y : Int}, ¬ Joined g.getWeightedNeighbors x y →
          ((g.getWeightedNeighbors x ++ [(y, weight)]).map Prod.fst).Nodup := by
        intro x y hxy
        rw [List.map_append, List.nodup_append]
        refine ⟨h.nodup x, by simp, ?_⟩
        rintro a ha b hb rfl
        obtain ⟨⟨a, c⟩, hc, rfl⟩ := List.mem_map.mp ha
        obtain rfl : a = y := by simpa using hb
        exact hxy ⟨c, hc⟩
      rw [neighbors_addEdge hnew hne]
      split
      · exact hpush hnot
      · split
        · exact hpush fun hvu => hnot (h.joined_symm.mp hvu)
        · exact h.nodup x
    · intro x y c hc
      rw [mem_neighbors_addEdge hnew hne] at hc
      rcases hc with hc | ⟨-, ⟨rfl, rfl⟩ | ⟨rfl, rfl⟩⟩
      · exact h.loopless hc
      · exact hne.symm
      · exact hne

/-! ### Edges that go -/

theorem neighbors_removeEdge :
    (g.removeEdge u v).getWeightedNeighbors x =
      if x = v then withoutNeighbor u
        (if v = u then withoutNeighbor v (g.getWeightedNeighbors u) else g.getWeightedNeighbors v)
      else if x = u then withoutNeighbor v (g.getWeightedNeighbors u)
      else g.getWeightedNeighbors x := by
  simp only [removeEdge, getWeightedNeighbors]
  rw [AdjacencyList.neighbors_modify rfl, AdjacencyList.neighbors_modify rfl,
    AdjacencyList.neighbors_modify rfl]

theorem mem_neighbors_removeEdge :
    (y, w) ∈ (g.removeEdge u v).getWeightedNeighbors x ↔
      (y, w) ∈ g.getWeightedNeighbors x ∧ ¬ (x = u ∧ y = v ∨ x = v ∧ y = u) := by
  rw [neighbors_removeEdge]
  by_cases hv : x = v
  · subst hv
    by_cases hu : x = u
    · subst hu
      simp
    · simp [hu]
  · by_cases hu : x = u
    · subst hu
      simp [hv]
    · simp [hu, hv]

theorem simple_removeEdge (h : Simple g.getWeightedNeighbors) :
    Simple (g.removeEdge u v).getWeightedNeighbors := by
  refine h.of_kept (fun x y => ¬ (x = u ∧ y = v ∨ x = v ∧ y = u)) (by tauto)
    mem_neighbors_removeEdge fun x => ?_
  rw [neighbors_removeEdge]
  split
  · split
    · exact nodup_withoutNeighbor (nodup_withoutNeighbor (h.nodup u))
    · exact nodup_withoutNeighbor (h.nodup v)
  · split
    · exact nodup_withoutNeighbor (h.nodup u)
    · exact h.nodup x

theorem neighbors_removeNode :
    (g.removeNode node).getWeightedNeighbors x =
      if x = node then [] else withoutNeighbor node (g.getWeightedNeighbors x) := by
  simp only [removeNode, getWeightedNeighbors]
  rw [AdjacencyList.neighbors_modifyAll rfl, AdjacencyList.neighbors_erase]
  split <;> rfl

theorem mem_neighbors_removeNode :
    (y, w) ∈ (g.removeNode node).getWeightedNeighbors x ↔
      (y, w) ∈ g.getWeightedNeighbors x ∧ (x ≠ node ∧ y ≠ node) := by
  rw [neighbors_removeNode]
  by_cases hx : x = node
  · simp [hx]
  · simp [hx]

theorem simple_removeNode (h : Simple g.getWeightedNeighbors) :
    Simple (g.removeNode node).getWeightedNeighbors := by
  refine h.of_kept (fun x y => x ≠ node ∧ y ≠ node) And.symm mem_neighbors_removeNode fun x => ?_
  rw [neighbors_removeNode]
  split
  · exact List.nodup_nil
  · exact nodup_withoutNeighbor (h.nodup x)

/-! ### Edges that stay -/

theorem neighbors_addNode :
    (g.addNode node weight).getWeightedNeighbors x = g.getWeightedNeighbors x := by
  unfold addNode
  split
  · rfl
  · next hnew =>
    simp only [getWeightedNeighbors]
    rw [AdjacencyList.neighbors_insert]
    split
    · next hx => rw [hx, AdjacencyList.neighbors, AList.lookup_eq_none.mpr hnew, Option.getD_none]
    · rfl

theorem neighbors_updateEdgeWeight (hne : u ≠ v) :
    (g.updateEdgeWeight u v weight).1.getWeightedNeighbors x =
      if x = u then withWeight v weight (g.getWeightedNeighbors u)
      else if x = v then withWeight u weight (g.getWeightedNeighbors v)
      else g.getWeightedNeighbors x := by
  simp only [updateEdgeWeight, getWeightedNeighbors]
  rw [AdjacencyList.neighbors_modify rfl, AdjacencyList.neighbors_modify rfl,
    AdjacencyList.neighbors_modify rfl, if_neg hne.symm]
  by_cases hx : x = v
  · simp [hx, hne.symm]
  · simp [hx]

/-- A node is never its own neighbour, so an update of the edge to itself finds nothing. -/
theorem neighbors_updateEdgeWeight_self (h : Simple g.getWeightedNeighbors) :
    (g.updateEdgeWeight u u weight).1.getWeightedNeighbors x = g.getWeightedNeighbors x := by
  have hnone : ∀ entries : List (Int × W), (∀ w, (u, w) ∉ entries) →
      withWeight u weight entries = entries := by
    intro entries hentries
    induction entries with
    | nil => rfl
    | cons p entries ih =>
      have hp : p.1 ≠ u := fun hp => hentries p.2 (by simp [← hp])
      rw [withWeight, if_neg hp, ih fun w hw => hentries w (List.mem_cons_of_mem _ hw)]
  have hself : withWeight u weight (g.adjacencyList.neighbors u) = g.adjacencyList.neighbors u :=
    hnone _ fun w hw => h.loopless hw rfl
  simp only [updateEdgeWeight, getWeightedNeighbors]
  rw [AdjacencyList.neighbors_modify rfl, AdjacencyList.neighbors_modify rfl,
    AdjacencyList.neighbors_modify rfl, if_pos rfl, hself, hself]
  by_cases hx : x = u
  · rw [if_pos hx, hx]
  · rw [if_neg hx, if_neg hx]

theorem mem_neighbors_updateEdgeWeight (h : Simple g.getWeightedNeighbors) (hne : u ≠ v) :
    (y, w) ∈ (g.updateEdgeWeight u v weight).1.getWeightedNeighbors x ↔
      if x = u ∧ y = v ∨ x = v ∧ y = u then w = weight ∧ Joined g.getWeightedNeighbors x y
      else (y, w) ∈ g.getWeightedNeighbors x := by
  rw [neighbors_updateEdgeWeight hne]
  by_cases hu : x = u
  · subst hu
    rw [if_pos rfl, mem_withWeight (h.nodup x)]
    by_cases hy : y = v
    · simp [hy, Joined]
    · simp [hy, hne]
  · by_cases hv : x = v
    · subst hv
      rw [if_neg hu, if_pos rfl, mem_withWeight (h.nodup x)]
      by_cases hy : y = u
      · simp [hy, Joined]
      · simp [hy, hu]
    · simp [hu, hv]

theorem simple_updateEdgeWeight (h : Simple g.getWeightedNeighbors) :
    Simple (g.updateEdgeWeight u v weight).1.getWeightedNeighbors := by
  by_cases hne : u = v
  · subst hne
    have hsame : (g.updateEdgeWeight u u weight).1.getWeightedNeighbors = g.getWeightedNeighbors :=
      funext fun x => neighbors_updateEdgeWeight_self h
    rwa [hsame]
  · refine ⟨?_, ?_, ?_⟩
    · intro x y c hc
      rw [mem_neighbors_updateEdgeWeight h hne] at hc ⊢
      split at hc
      · next hends =>
        rw [if_pos (by tauto)]
        exact ⟨hc.1, h.joined_symm.mp hc.2⟩
      · next hends =>
        rw [if_neg (by tauto)]
        exact h.symm hc
    · intro x
      rw [neighbors_updateEdgeWeight hne]
      split
      · rw [map_fst_withWeight]
        exact h.nodup u
      · split
        · rw [map_fst_withWeight]
          exact h.nodup v
        · exact h.nodup x
    · intro x y c hc
      rw [mem_neighbors_updateEdgeWeight h hne] at hc
      split at hc
      · obtain ⟨w, hw⟩ := hc.2
        exact h.loopless hw
      · exact h.loopless hc

/-- An operation that joins no node to itself keeps both sides of every edge in step. -/
theorem simple_apply (h : Simple g.getWeightedNeighbors) {op : GraphOp W}
    (hop : ∀ u w, op ≠ .addEdge u u w) : Simple (g.apply op).getWeightedNeighbors := by
  cases op with
  | addNode node weight =>
    have hsame : (g.addNode node weight).getWeightedNeighbors = g.getWeightedNeighbors :=
      funext fun x => neighbors_addNode
    exact hsame ▸ h
  | addEdge u v weight => exact simple_addEdge h fun huv => hop u weight (by rw [huv])
  | removeEdge u v => exact simple_removeEdge h
  | removeNode node => exact simple_removeNode h
  | updateEdgeWeight u v weight => exact simple_updateEdgeWeight h
  | setNodeWeight node weight => exact h
  | clear => exact ⟨by simp [apply, empty, getWeightedNeighbors],
      by simp [apply, empty, getWeightedNeighbors], by simp [apply, empty, getWeightedNeighbors]⟩

theorem Reordered.neighbors (h : g.Reordered g') : g'.getWeightedNeighbors = g.getWeightedNeighbors := by
  funext x
  have := AList.perm_lookup (a := x) h.1
  simp only [getWeightedNeighbors, AdjacencyList.neighbors, this]

end Graph

end CudaqQec.Cudaqx
