import CudaqQec.Core.Graph
import Mathlib.Data.List.Nodup
import Mathlib.Tactic.Ring

/-!
# What an undirected graph's readers return

While both sides of every edge agree, the readers of `graph` see one undirected simple graph: its number
of edges is half of what the lists hold, and its traversal from one node reaches all of them just where
every two nodes are joined by a path.

* `undirected_of_simple`: what the readers return of lists that agree.
* `Reachable.undirected`: what they return after operations that join no node to itself.
-/

namespace CudaqQec.Cudaqx

open Relation Searches

variable {W : Type} {g g' : Graph W} {u v x y : Int} {w : W}

namespace Graph

def joinedPairs (g : Graph W) : Set (Int × Int) :=
  {p | p.1 < p.2 ∧ Joined g.getWeightedNeighbors p.1 p.2}

/-- An undirected simple graph, as its readers see it. -/
structure Undirected [One W] [Neg W] (g : Graph W) : Prop where
  symm : ∀ u v, v ∈ g.getNeighbors u ↔ u ∈ g.getNeighbors v
  once : ∀ u, (g.getNeighbors u).Nodup
  weights : ∀ u v w, (v, w) ∈ g.getWeightedNeighbors u ↔ (u, w) ∈ g.getWeightedNeighbors v
  edgeWeight : ∀ u v, g.getEdgeWeight u v = g.getEdgeWeight v u
  nodes : ∀ u v, v ∈ g.getNeighbors u → u ∈ g.getNodes ∧ v ∈ g.getNodes
  edges : g.numEdges = {p : Int × Int | p.1 < p.2 ∧ p.2 ∈ g.getNeighbors p.1}.ncard
  ordered : (g.getDisconnectedVertices.map toLex).Pairwise (· < ·)
  disconnected : ∀ a b, (a, b) ∈ g.getDisconnectedVertices ↔
    a < b ∧ a ∈ g.getNodes ∧ b ∈ g.getNodes ∧ b ∉ g.getNeighbors a
  connected : ∃ c, g.isConnected = some c ∧ (c = true ↔ ∀ a ∈ g.getNodes, ∀ b ∈ g.getNodes,
    ReflTransGen (fun u v => v ∈ g.getNeighbors u) a b)

/-! ## Neighbours and nodes -/

@[simp] theorem mem_getNeighbors : v ∈ g.getNeighbors u ↔ Joined g.getWeightedNeighbors u v := by
  simp [getNeighbors, Joined]

theorem nodup_getNeighbors (h : Simple g.getWeightedNeighbors) : (g.getNeighbors u).Nodup :=
  (List.perm_insertionSort _ _).nodup_iff.mpr (h.nodup u)

theorem mem_getNodes_of_joined (h : Simple g.getWeightedNeighbors)
    (huv : Joined g.getWeightedNeighbors u v) : u ∈ g.getNodes ∧ v ∈ g.getNodes := by
  obtain ⟨w, hw⟩ := huv
  exact ⟨AdjacencyList.mem_of_mem_neighbors hw, AdjacencyList.mem_of_mem_neighbors (h.symm hw)⟩

theorem getEdgeWeight_of_mem [One W] [Neg W] (h : Simple g.getWeightedNeighbors)
    (hw : (v, w) ∈ g.getWeightedNeighbors u) : g.getEdgeWeight u v = w := by
  have hfind : ∃ p, (g.getWeightedNeighbors u).find? (·.1 = v) = some p := by
    rw [← Option.isSome_iff_exists, List.find?_isSome]
    exact ⟨(v, w), hw, by simp⟩
  obtain ⟨⟨v', w'⟩, hp⟩ := hfind
  obtain rfl : v' = v := by simpa using List.find?_some hp
  have hsame := List.inj_on_of_nodup_map (h.nodup u) (List.mem_of_find?_eq_some hp) hw rfl
  rw [getEdgeWeight, hp, Option.map_some, Option.getD_some]
  exact (Prod.mk.inj hsame).2

theorem getEdgeWeight_of_not_joined [One W] [Neg W] (huv : ¬ Joined g.getWeightedNeighbors u v) :
    g.getEdgeWeight u v = -1 := by
  have hfind : (g.getWeightedNeighbors u).find? (·.1 = v) = none := by
    rw [List.find?_eq_none]
    rintro ⟨v', w⟩ hp hv
    obtain rfl : v' = v := by simpa using hv
    exact huv ⟨w, hp⟩
  rw [getEdgeWeight, hfind, Option.map_none, Option.getD_none]

theorem getEdgeWeight_symm [One W] [Neg W] (h : Simple g.getWeightedNeighbors) (u v : Int) :
    g.getEdgeWeight u v = g.getEdgeWeight v u := by
  by_cases huv : Joined g.getWeightedNeighbors u v
  · obtain ⟨w, hw⟩ := huv
    rw [getEdgeWeight_of_mem h hw, getEdgeWeight_of_mem h (h.symm hw)]
  · rw [getEdgeWeight_of_not_joined huv,
      getEdgeWeight_of_not_joined fun hvu => huv (h.joined_symm.mp hvu)]

/-! ## Edges, counted on both sides -/

def darts (g : Graph W) : List (Int × Int) :=
  g.adjacencyList.entries.flatMap fun p => p.2.map fun q => (p.1, q.1)

theorem neighbors_of_mem_entries {entries : List (Int × W)}
    (h : ⟨u, entries⟩ ∈ g.adjacencyList.entries) : g.getWeightedNeighbors u = entries := by
  rw [getWeightedNeighbors, AdjacencyList.neighbors, AList.mem_lookup_iff.mpr h, Option.getD_some]

theorem mem_darts : (u, v) ∈ g.darts ↔ Joined g.getWeightedNeighbors u v := by
  simp only [darts, List.mem_flatMap, List.mem_map]
  constructor
  · rintro ⟨⟨u', entries⟩, hp, ⟨v', w⟩, hq, heq⟩
    obtain ⟨rfl, rfl⟩ := Prod.mk.inj heq
    exact ⟨w, (neighbors_of_mem_entries hp).symm ▸ hq⟩
  · rintro ⟨w, hw⟩
    obtain ⟨entries, hl⟩ := Option.isSome_iff_exists.mp
      (AList.lookup_isSome.mpr (AdjacencyList.mem_of_mem_neighbors hw))
    have hp : ⟨u, entries⟩ ∈ g.adjacencyList.entries := AList.mem_lookup_iff.mp hl
    exact ⟨⟨u, entries⟩, hp, ⟨v, w⟩, neighbors_of_mem_entries hp ▸ hw, rfl⟩

theorem nodup_darts (h : Simple g.getWeightedNeighbors) : g.darts.Nodup := by
  rw [darts, List.nodup_flatMap]
  constructor
  · rintro ⟨u, entries⟩ hp
    have hnodup := h.nodup u
    rw [neighbors_of_mem_entries hp] at hnodup
    have hpair : (entries.map fun q => (u, q.1)) = (entries.map Prod.fst).map fun v => (u, v) := by
      simp
    rw [hpair]
    exact hnodup.map fun a b hab => (Prod.mk.inj hab).2
  · have hkeys := g.adjacencyList.nodupKeys
    rw [List.NodupKeys, List.keys, List.Nodup, List.pairwise_map] at hkeys
    refine hkeys.imp fun {p q} hpq => ?_
    rintro ⟨a, b⟩ ha hb
    obtain ⟨_, -, ha⟩ := List.mem_map.mp ha
    obtain ⟨_, -, hb⟩ := List.mem_map.mp hb
    exact hpq ((Prod.mk.inj ha).1.trans (Prod.mk.inj hb).1.symm)

theorem joinedPairs_eq :
    g.joinedPairs = ((g.darts.filter fun p => p.1 < p.2).toFinset : Set (Int × Int)) := by
  ext ⟨a, b⟩
  simp [joinedPairs, mem_darts, and_comm]

theorem finite_joinedPairs (g : Graph W) : g.joinedPairs.Finite := by
  rw [joinedPairs_eq]
  exact Finset.finite_toSet _

theorem ncard_joinedPairs (h : Simple g.getWeightedNeighbors) :
    g.joinedPairs.ncard = (g.darts.filter fun p => p.1 < p.2).length := by
  rw [joinedPairs_eq, Set.ncard_coe_finset, List.toFinset_card_of_nodup ((nodup_darts h).filter _)]

/-- Every edge is counted twice. -/
theorem length_darts (h : Simple g.getWeightedNeighbors) :
    g.darts.length = 2 * g.joinedPairs.ncard := by
  have hback : ((g.darts.filter fun p => p.1 < p.2).map Prod.swap).Perm
      (g.darts.filter fun p => ¬ p.1 < p.2) := by
    rw [List.perm_ext_iff_of_nodup (((nodup_darts h).filter _).map Prod.swap_injective)
      ((nodup_darts h).filter _)]
    rintro ⟨a, b⟩
    have hloop : Joined g.getWeightedNeighbors a b → a ≠ b := fun ⟨w, hw⟩ hab =>
      h.loopless hw hab.symm
    simp only [List.mem_map, List.mem_filter, Prod.exists, Prod.swap_prod_mk, Prod.mk.injEq, mem_darts,
      decide_eq_true_eq]
    constructor
    · rintro ⟨c, d, ⟨hcd, hlt⟩, rfl, rfl⟩
      exact ⟨h.joined_symm.mp hcd, by omega⟩
    · rintro ⟨hab, hnot⟩
      have := hloop hab
      exact ⟨b, a, ⟨h.joined_symm.mp hab, by omega⟩, rfl, rfl⟩
  have hlen := hback.length_eq
  rw [List.length_map] at hlen
  rw [ncard_joinedPairs h, List.length_eq_length_filter_add fun p => decide (p.1 < p.2)]
  simp only [decide_not] at hlen
  omega

/-- The running total wraps around like the sum does. -/
theorem foldl_toInt (entries : List (Sigma fun _ : Int => List (Int × W))) (total : Int) :
    entries.foldl (fun total p => toInt (total + p.2.length)) (toInt total) =
      toInt (total + ((entries.map fun p => p.2.length).sum : Nat)) := by
  induction entries generalizing total with
  | nil => simp
  | cons p entries ih =>
    have hstep : toInt (toInt total + p.2.length) = toInt (total + p.2.length) := Int.bmod_add_bmod
    rw [List.foldl_cons, hstep, ih, List.map_cons, List.sum_cons]
    congr 1
    push_cast
    ring

theorem numEdges_eq (h : Simple g.getWeightedNeighbors) (hcount : g.joinedPairs.ncard < 2 ^ 30) :
    g.numEdges = g.joinedPairs.ncard := by
  have hsum : (g.adjacencyList.entries.map fun p => p.2.length).sum = 2 * g.joinedPairs.ncard := by
    rw [← length_darts h, darts, List.length_flatMap]
    simp
  have hzero : (0 : Int) = toInt 0 := rfl
  have hfit : toInt ((2 * g.joinedPairs.ncard : Nat) : Int) = (2 * g.joinedPairs.ncard : Nat) :=
    Int.bmod_eq_of_le_mul_two (by omega) (by omega)
  rw [numEdges, hzero, foldl_toInt, hsum, Int.zero_add, hfit]
  push_cast
  exact Int.mul_tdiv_cancel_left _ (by decide)

/-! ## Pairs that are not joined -/

theorem mem_getDisconnectedVertices : (u, v) ∈ g.getDisconnectedVertices ↔
    u < v ∧ u ∈ g.getNodes ∧ v ∈ g.getNodes ∧ ¬ Joined g.getWeightedNeighbors u v := by
  have hexists : g.edgeExists u v = false ↔ ¬ Joined g.getWeightedNeighbors u v := by
    rw [← edgeExists_iff, Bool.not_eq_true]
  simp only [getDisconnectedVertices, List.mem_map, List.mem_insertionSort, List.mem_flatMap,
    List.mem_filter, decide_eq_true_eq]
  constructor
  · rintro ⟨_, ⟨ni, hni, nj, ⟨hnj, hlt, hno⟩, rfl⟩, heq⟩
    obtain ⟨rfl, rfl⟩ := Prod.mk.inj heq
    exact ⟨hlt, hni, hnj, hexists.mp hno⟩
  · rintro ⟨hlt, hu, hv, hno⟩
    exact ⟨toLex (u, v), ⟨u, hu, v, ⟨hv, hlt, hexists.mpr hno⟩, rfl⟩, rfl⟩

theorem pairwise_getDisconnectedVertices :
    (g.getDisconnectedVertices.map toLex).Pairwise (· < ·) := by
  have hnodes : g.getNodes.Nodup := g.adjacencyList.keys_nodup
  have hnodup : (g.getNodes.flatMap fun ni =>
      (g.getNodes.filter fun nj => ni < nj ∧ g.edgeExists ni nj = false).map fun nj =>
        toLex (ni, nj)).Nodup := by
    rw [List.nodup_flatMap]
    constructor
    · intro ni _
      exact (hnodes.filter _).map fun a b hab => (Prod.mk.inj (toLex.injective hab)).2
    · refine hnodes.imp fun {a b} hab => ?_
      intro p ha hb
      obtain ⟨_, -, rfl⟩ := List.mem_map.mp ha
      obtain ⟨_, -, hb⟩ := List.mem_map.mp hb
      exact hab (Prod.mk.inj (toLex.injective hb)).1.symm
  simp only [getDisconnectedVertices, List.map_map, Function.comp_def, toLex_ofLex, List.map_id']
  have hsorted := List.pairwise_insertionSort (· ≤ ·) (g.getNodes.flatMap fun ni =>
      (g.getNodes.filter fun nj => ni < nj ∧ g.edgeExists ni nj = false).map fun nj =>
        toLex (ni, nj))
  exact hsorted.imp₂ (fun a b hle hne => lt_of_le_of_ne hle hne)
    ((List.perm_insertionSort _ _).nodup_iff.mpr hnodup)

/-! ## One component -/

theorem isConnected_iff (h : Simple g.getWeightedNeighbors) :
    ∃ c, g.isConnected = some c ∧ (c = true ↔ ∀ a ∈ g.getNodes, ∀ b ∈ g.getNodes,
      ReflTransGen (fun u v => v ∈ g.getNeighbors u) a b) := by
  unfold isConnected
  split
  · next hnil => exact ⟨true, rfl, by simp [hnil]⟩
  · next startNode rest hnodes =>
    have hstart : startNode ∈ g.getNodes := by simp [hnodes]
    have hnext : ∀ x ∈ g.getNodes, ∀ y ∈ g.getNeighbors x, y ∈ g.getNodes := fun x _ y hy =>
      (mem_getNodes_of_joined h (mem_getNeighbors.mp hy)).2
    obtain ⟨visited, hrun, hnodup, hamong, hmem⟩ := explore_spec hnext hstart
      (Nat.lt_succ_self g.getNodes.length)
    have hsymm : Std.Symm fun u v => v ∈ g.getNeighbors u := ⟨fun u v huv => by
      rw [mem_getNeighbors] at huv ⊢
      exact h.joined_symm.mp huv⟩
    have hback : ∀ {a b}, ReflTransGen (fun u v => v ∈ g.getNeighbors u) a b →
        ReflTransGen (fun u v => v ∈ g.getNeighbors u) b a := fun hab =>
      ReflTransGen.stdSymm.symm _ _ hab
    rw [hrun, Option.map_some]
    refine ⟨_, rfl, ?_⟩
    rw [decide_eq_true_eq]
    constructor
    · intro hlen a ha b hb
      -- As many are visited as there are, so all are.
      have hall := (List.subperm_of_subset hnodup hamong).perm_of_length_le hlen.ge
      have hreach : ∀ c ∈ g.getNodes, ReflTransGen (fun u v => v ∈ g.getNeighbors u) startNode c :=
        fun c hc => (hmem c).mp (hall.mem_iff.mpr hc)
      exact (hback (hreach a ha)).trans (hreach b hb)
    · intro hall
      have hsub : g.getNodes ⊆ visited := fun c hc => (hmem c).mpr (hall startNode hstart c hc)
      have hle := (List.subperm_of_subset g.adjacencyList.keys_nodup hsub).length_le
      have hge := (List.subperm_of_subset hnodup hamong).length_le
      exact Nat.le_antisymm hge hle

/-- Lists that agree are read as one undirected simple graph, as long as an `int` holds their number of
entries. -/
theorem undirected_of_simple [One W] [Neg W] (h : Simple g.getWeightedNeighbors)
    (hcount : g.joinedPairs.ncard < 2 ^ 30) : g.Undirected where
  symm u v := by simpa using h.joined_symm
  once u := nodup_getNeighbors h
  weights u v w := ⟨h.symm, h.symm⟩
  edgeWeight := getEdgeWeight_symm h
  nodes u v huv := mem_getNodes_of_joined h (mem_getNeighbors.mp huv)
  edges := by simpa [joinedPairs] using numEdges_eq h hcount
  ordered := pairwise_getDisconnectedVertices
  disconnected a b := by simpa using mem_getDisconnectedVertices
  connected := isConnected_iff h

/-! ## Runs -/

/-- An operation joins no node to itself, and no more edges than a running total in an `int` holds. -/
def Joins (g : Graph W) : GraphOp W → Prop
  | .addEdge u v _ => u ≠ v ∧ (Joined g.getWeightedNeighbors u v ∨ g.joinedPairs.ncard + 1 < 2 ^ 30)
  | _ => True

theorem joinedPairs_subset {h : Graph W} (hsub : ∀ u v, Joined h.getWeightedNeighbors u v →
    Joined g.getWeightedNeighbors u v) : h.joinedPairs.ncard ≤ g.joinedPairs.ncard :=
  Set.ncard_le_ncard (fun _ hp => ⟨hp.1, hsub _ _ hp.2⟩) (finite_joinedPairs g)

theorem ncard_addEdge (hnew : g.edgeExists u v = false) (hne : u ≠ v) :
    (g.addEdge u v w).joinedPairs.ncard ≤ g.joinedPairs.ncard + 1 := by
  have hsub : (g.addEdge u v w).joinedPairs ⊆ insert (min u v, max u v) g.joinedPairs := by
    rintro ⟨a, b⟩ ⟨hlt, c, hc⟩
    rw [mem_neighbors_addEdge hnew hne] at hc
    rcases hc with hc | ⟨-, ⟨rfl, rfl⟩ | ⟨rfl, rfl⟩⟩
    · exact .inr ⟨hlt, c, hc⟩
    · left
      rw [min_eq_left hlt.le, max_eq_right hlt.le]
    · left
      rw [min_eq_right hlt.le, max_eq_left hlt.le]
  exact (Set.ncard_le_ncard hsub ((finite_joinedPairs g).insert _)).trans (Set.ncard_insert_le _ _)

/-- The number of edges stays one an `int` can count twice. -/
theorem ncard_apply (h : Simple g.getWeightedNeighbors) (hcount : g.joinedPairs.ncard < 2 ^ 30)
    {op : GraphOp W} (hop : g.Joins op) : (g.apply op).joinedPairs.ncard < 2 ^ 30 := by
  -- only an edge that is new makes a pair of its own
  cases op with
  | addEdge u v weight =>
    obtain ⟨hne, hroom⟩ := hop
    cases hnew : g.edgeExists u v with
    | true =>
      have hsame : g.addEdge u v weight = g := by simp [addEdge, hnew]
      exact (congrArg (fun g : Graph W => g.joinedPairs.ncard) hsame).trans_lt hcount
    | false =>
      have hnot : ¬ Joined g.getWeightedNeighbors u v := by simp [← edgeExists_iff, hnew]
      exact (ncard_addEdge hnew hne).trans_lt (hroom.resolve_left hnot)
  | addNode node weight =>
    refine (joinedPairs_subset fun u v huv => ?_).trans_lt hcount
    obtain ⟨c, hc⟩ := huv
    exact ⟨c, neighbors_addNode ▸ hc⟩
  | removeEdge a b =>
    refine (joinedPairs_subset fun u v huv => ?_).trans_lt hcount
    obtain ⟨c, hc⟩ := huv
    exact ⟨c, (mem_neighbors_removeEdge.mp hc).1⟩
  | removeNode node =>
    refine (joinedPairs_subset fun u v huv => ?_).trans_lt hcount
    obtain ⟨c, hc⟩ := huv
    exact ⟨c, (mem_neighbors_removeNode.mp hc).1⟩
  | updateEdgeWeight a b weight =>
    refine (joinedPairs_subset fun u v huv => ?_).trans_lt hcount
    obtain ⟨c, hc⟩ := huv
    by_cases hne : a = b
    · subst hne
      exact ⟨c, neighbors_updateEdgeWeight_self h ▸ hc⟩
    · have hc' := (mem_neighbors_updateEdgeWeight h hne).mp hc
      split at hc'
      · exact hc'.2
      · exact ⟨c, hc'⟩
  | setNodeWeight node weight => exact hcount
  | clear =>
    refine (joinedPairs_subset fun u v huv => ?_).trans_lt hcount
    obtain ⟨c, hc⟩ := huv
    simp [apply, empty, getWeightedNeighbors] at hc

theorem simple_reachable (h : Reachable Joins g) :
    Simple g.getWeightedNeighbors ∧ g.joinedPairs.ncard < 2 ^ 30 := by
  induction h with
  | start =>
    have hnone : ∀ x, (empty : Graph W).getWeightedNeighbors x = [] := fun x => by
      simp [empty, getWeightedNeighbors]
    refine ⟨⟨by simp [hnone], by simp [hnone], by simp [hnone]⟩, ?_⟩
    have hempty : (empty : Graph W).joinedPairs = ∅ := by
      ext p
      simp [joinedPairs, Joined, hnone]
    simp [hempty]
  | @step g g' op before meets reordered ih =>
    have hop : ∀ u w, op ≠ .addEdge u u w := by
      rintro u w rfl
      exact meets.1 rfl
    have hsame := reordered.neighbors
    have hpairs : g'.joinedPairs = (g.apply op).joinedPairs := by simp only [joinedPairs, hsame]
    rw [hsame, hpairs]
    exact ⟨simple_apply ih.1 hop, ncard_apply ih.1 ih.2 meets⟩

end Graph

open Cudaqx.Graph

/-- In every run that joins no node to itself, the graph is undirected and simple throughout. -/
theorem Reachable.undirected [One W] [Neg W] (h : Reachable Graph.Joins g) : g.Undirected :=
  undirected_of_simple (simple_reachable h).1 (simple_reachable h).2

/-- Two nodes joined by an edge whose weight is changed. -/
theorem undirected_oneEdge :
    (((empty : Graph Int).apply (.addEdge 1 2 5)).apply (.updateEdgeWeight 2 1 7)).Undirected := by
  apply Reachable.undirected
  refine @Reachable.step _ _ _ _ (.updateEdgeWeight 2 1 7) (@Reachable.step _ _ _ _ (.addEdge 1 2 5) .start ?_ ⟨.refl _, .refl _⟩)
    trivial ⟨.refl _, .refl _⟩
  refine ⟨by decide, .inr ?_⟩
  have hempty : (empty : Graph Int).joinedPairs = ∅ := by
    ext p
    simp [joinedPairs, Joined, empty, getWeightedNeighbors]
  simp [hempty]

/-- A node joined to itself stands in its own list twice, and an update reaches one of the entries. -/
theorem not_undirected_selfEdge :
    let g := ((empty : Graph Int).apply (.addEdge 1 1 5)).apply (.updateEdgeWeight 1 1 7)
    Reachable (fun _ _ => True) g ∧ g.getNeighbors 1 = [1, 1] ∧
      g.getWeightedNeighbors 1 = [(1, 7), (1, 5)] ∧ ¬ g.Undirected := by
  refine ⟨?_, by decide, by decide, fun h => absurd (h.once 1) (by decide)⟩
  exact @Reachable.step _ _ _ _ (.updateEdgeWeight 1 1 7) (@Reachable.step _ _ _ _ (.addEdge 1 1 5) .start trivial
    ⟨.refl _, .refl _⟩) trivial ⟨.refl _, .refl _⟩

end CudaqQec.Cudaqx
