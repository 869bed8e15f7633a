import CudaqQec.Commitment.Schedule
import CudaqQec.Lib.Searches

/-!
# Windows that wait on their own index

A receive at `index_offset` 0 makes a window wait on another of its own index, so receives that form a
cycle leave every window on it waiting for the others. `same_index_cycle` searches for one.

* `Search.Valid`: the path being visited, and what is done with.
* `sameIndexCycle_correct`: the search ends, and returns a cycle exactly when there is one.
-/

namespace CudaqQec

open Searches

/-- The state of `same_index_cycle`: the nodes being visited, and those done with. -/
structure Search where
  path : List String
  done : List String
  deriving DecidableEq

/-! ## The search -/

/-- `visit`'s loop over the edges, for node `id`; `visit` visits the node a receive leads to. The first
component is what the source returns. -/
@[grind =]
def visitEdges (windows : List String) (visit : String → Search → Option (Bool × Search)) (id : String) :
    List TaskGraphEdge → Search → Option (Bool × Search)
  | [], s => some (false, s)
  | e :: edges, s =>
    if e.fromNode ≠ id ∨ e.toNode ∉ windows ∨ e.toInput = "input" ∨ e.indexOffset ≠ 0 ∨
        e.toNode ∈ s.done then
      visitEdges windows visit id edges s
    else if e.toNode ∈ s.path then
      some (true, { s with path := s.path.dropWhile (· ≠ e.toNode) ++ [e.toNode] })
    else
      match visit e.toNode s with
      | some (false, s') => visitEdges windows visit id edges s'
      | found => found

@[grind =] def visit (windows : List String) (edges : List TaskGraphEdge) :
    Nat → String → Search → Option (Bool × Search)
  | 0, _, _ => none
  | fuel + 1, id, s =>
    match visitEdges windows (visit windows edges fuel) id edges { s with path := s.path ++ [id] } with
    | some (false, s') => some (false, { path := s'.path.dropLast, done := id :: s'.done })
    | found => found

/-- The loop of `same_index_cycle` over the windows that are left. -/
@[grind =] def searchFrom (visit : String → Search → Option (Bool × Search)) :
    List String → Search → Option (List String)
  | [], _ => some []
  | id :: ids, s =>
    if id ∈ s.done then searchFrom visit ids s
    else
      match visit id s with
      | none => none
      | some (true, s') => some s'.path
      | some (false, s') => searchFrom visit ids s'

/-- `same_index_cycle`. No visit is deeper than there are windows. -/
def sameIndexCycle (windows : List String) (edges : List TaskGraphEdge) : Option (List String) :=
  searchFrom (visit windows edges (windows.length + 1)) windows ⟨[], []⟩

/-! ## Paths of same-index edges -/

/-- A window waits on another of its own index: it is sent to at `index_offset` 0, on another port than
the one its rows come in at. -/
def Receives (windows : List String) (edges : List TaskGraphEdge) (a b : String) : Prop :=
  ∃ e ∈ edges, e.fromNode = a ∧ e.toNode = b ∧ a ∈ windows ∧ b ∈ windows ∧ e.toInput ≠ "input" ∧
    e.indexOffset = 0

variable {windows : List String} {edges : List TaskGraphEdge}

/-- The path is one of receives between windows, and nothing on it is done with. -/
structure Search.Valid (windows : List String) (edges : List TaskGraphEdge) (s : Search) : Prop where
  chain : s.path.IsChain (Receives windows edges)
  nodup : s.path.Nodup
  among : ∀ id ∈ s.path, id ∈ windows
  finished : Finished (Receives windows edges) s.done
  apart : ∀ id ∈ s.path, id ∉ s.done

/-- What a visit or a part of it comes to: a cycle, or the path as it was and more done with, the nodes
in question among it. -/
inductive Search.Outcome (windows : List String) (edges : List TaskGraphEdge) (s : Search)
    (inQuestion : String → Prop) : Option (Bool × Search) → Prop
  | cycle {s' : Search} (found : IsCycle (Receives windows edges) s'.path) :
      Outcome windows edges s inQuestion (some (true, s'))
  | done {s' : Search} (valid : s'.Valid windows edges) (path : s'.path = s.path)
      (kept : ∀ id ∈ s.done, id ∈ s'.done) (visited : ∀ id, inQuestion id → id ∈ s'.done) :
      Outcome windows edges s inQuestion (some (false, s'))

/-- What visiting a node comes to, where there is room for `fuel` more nodes on the path. -/
def VisitSound (windows : List String) (edges : List TaskGraphEdge) (fuel : Nat)
    (visit : String → Search → Option (Bool × Search)) : Prop :=
  ∀ (s : Search) (id : String), s.Valid windows edges → id ∈ windows → id ∉ s.path → id ∉ s.done →
    (∀ z ∈ s.path.getLast?, Receives windows edges z id) → windows.length < s.path.length + fuel →
    s.Outcome windows edges (· = id) (visit id s)

namespace Search

variable {s s₁ : Search} {q q₁ : String → Prop} {out : Option (Bool × Search)}

/-! ## One visit -/

/-- What comes of the rest is what comes of the whole, where the part before changed no path. -/
theorem Outcome.after (h : s₁.Outcome windows edges q₁ out) (hpath : s₁.path = s.path)
    (hkept : ∀ id ∈ s.done, id ∈ s₁.done) (hq : ∀ id, q id → q₁ id ∨ id ∈ s₁.done) :
    s.Outcome windows edges q out := by
  cases h with
  | cycle found => exact .cycle found
  | done valid path kept visited =>
    refine .done valid (path.trans hpath) (fun id hid => kept id (hkept id hid)) fun id hid => ?_
    rcases hq id hid with h | h
    · exact visited id h
    · exact kept id h

/-- The receives of `id` among the edges that are left are followed, each to what is done with or to a
cycle. -/
theorem outcome_visitEdges {fuel : Nat} {visit : String → Search → Option (Bool × Search)}
    (hvisit : VisitSound windows edges fuel visit) {id : String} {rest : List TaskGraphEdge}
    (hrest : ∀ e ∈ rest, e ∈ edges) {s : Search} (hs : s.Valid windows edges)
    (hid : s.path.getLast? = some id) (hfuel : windows.length < s.path.length + fuel) :
    s.Outcome windows edges (Receives windows rest id) (visitEdges windows visit id rest s) := by
  induction rest generalizing s with
  | nil => exact .done hs rfl (fun _ h => h) (by simp [Receives])
  | cons e rest ih =>
    have hrest' : ∀ e ∈ rest, e ∈ edges := fun e he => hrest e (List.mem_cons_of_mem _ he)
    have hidw : id ∈ windows := hs.among id (List.mem_of_getLast? hid)
    unfold visitEdges
    split
    · next hskip =>
      -- Not a receive of this node, or one from what is done with already.
      apply (ih hrest' hs hid hfuel).after rfl (fun _ h => h)
      rintro b ⟨e', he', rfl, rfl, ha, hb, hinput, hoffset⟩
      rcases List.mem_cons.mp he' with rfl | he'
      · exact .inr (by tauto)
      · exact .inl ⟨e', he', rfl, rfl, ha, hb, hinput, hoffset⟩
    · next hkeep =>
      have hedge : Receives windows edges id e.toNode :=
        ⟨e, hrest e List.mem_cons_self, by tauto, rfl, hidw, by tauto, by tauto, by tauto⟩
      have hto : ∀ z ∈ s.path.getLast?, Receives windows edges z e.toNode := by
        rintro z hz
        obtain rfl : id = z := by simpa [hid] using hz
        exact hedge
      split
      · next hpath => exact .cycle (IsCycle.of_path hs.chain hs.nodup hpath hto)
      · next hpath =>
        have hsub := hvisit s e.toNode hs (by tauto) hpath (by tauto) hto hfuel
        revert hsub
        generalize visit e.toNode s = out
        intro hsub
        cases hsub with
        | cycle found => exact .cycle found
        | @done s₁ valid path kept visited =>
          -- The node is done with, and the rest of the edges start from there.
          apply (ih hrest' valid (path ▸ hid) (path ▸ hfuel)).after path kept
          rintro b ⟨e', he', rfl, rfl, ha, hb, hinput, hoffset⟩
          rcases List.mem_cons.mp he' with rfl | he'
          · exact .inr (visited _ rfl)
          · exact .inl ⟨e', he', rfl, rfl, ha, hb, hinput, hoffset⟩

/-- A visit is sound, as many calls deep as there is room for. -/
theorem visitSound_visit (fuel : Nat) : VisitSound windows edges fuel (visit windows edges fuel) := by
  induction fuel with
  | zero =>
    intro s id hs _ _ _ _ hfuel
    have := (List.subperm_of_subset hs.nodup hs.among).length_le
    omega
  | succ fuel ih =>
    intro s id hs hidw hpath hdone hlast hfuel
    -- the window goes on the path, where it was not before
    have hpushed : Valid windows edges { s with path := s.path ++ [id] } := by
      refine ⟨?_, ?_, ?_, hs.finished, ?_⟩
      · refine hs.chain.append (by simp) fun z hz w hw => ?_
        obtain rfl : id = w := by simpa using hw
        exact hlast z hz
      · exact List.nodup_append.mpr ⟨hs.nodup, by simp, by rintro a ha b hb rfl; simp_all⟩
      · intro a ha
        rcases List.mem_append.mp ha with ha | ha
        · exact hs.among a ha
        · obtain rfl := List.mem_singleton.mp ha
          exact hidw
      · intro a ha
        rcases List.mem_append.mp ha with ha | ha
        · exact hs.apart a ha
        · obtain rfl := List.mem_singleton.mp ha
          exact hdone
    have hedges := outcome_visitEdges ih (fun _ h => h) hpushed List.getLast?_concat
      (by simp only [List.length_append, List.length_singleton]; omega)
    rw [visit]
    revert hedges
    generalize visitEdges windows (visit windows edges fuel) id edges _ = out
    intro hedges
    cases hedges with
    -- a cycle that was found behind an edge is reported as it is
    | cycle found => exact .cycle found
    -- the window is finished, and the path is what it was
    | @done s' valid path kept visited =>
      have hback : s'.path.dropLast = s.path := by rw [path, List.dropLast_concat]
      have hid' : id ∈ s'.path := by simp [path]
      refine .done ⟨?_, ?_, ?_, ?_, ?_⟩ hback (fun a ha => List.mem_cons_of_mem _ (kept a ha))
        (fun a ha => by simp [ha])
      · exact hback ▸ hs.chain
      · exact hback ▸ hs.nodup
      · exact hback ▸ hs.among
      · exact .cons (valid.apart id hid') visited valid.finished
      · intro a ha
        have ha' : a ∈ s.path := hback ▸ ha
        have hne : a ≠ id := fun h => hpath (h ▸ ha')
        have := valid.apart a (by simp [path, ha'])
        simp [hne, this]

/-- The loop over the windows returns a cycle, or ends with every window done with. -/
theorem searchFrom_spec {rest : List String} (hrest : ∀ id ∈ rest, id ∈ windows) {done : List String}
    (hs : Valid windows edges ⟨[], done⟩) :
    ∃ l, searchFrom (visit windows edges (windows.length + 1)) rest ⟨[], done⟩ = some l ∧
      (IsCycle (Receives windows edges) l ∨
        l = [] ∧ ∃ done', Finished (Receives windows edges) done' ∧ (∀ id ∈ done, id ∈ done') ∧
          ∀ id ∈ rest, id ∈ done') := by
  induction rest generalizing done with
  | nil => exact ⟨[], rfl, .inr ⟨rfl, done, hs.finished, fun _ h => h, by simp⟩⟩
  | cons id rest ih =>
    have hrest' : ∀ id ∈ rest, id ∈ windows := fun a ha => hrest a (List.mem_cons_of_mem _ ha)
    unfold searchFrom
    split
    · next hdone =>
      obtain ⟨l, hl, hcycle | ⟨hnil, done', hfin, hkept, hall⟩⟩ := ih hrest' hs
      · exact ⟨l, hl, .inl hcycle⟩
      · exact ⟨l, hl, .inr ⟨hnil, done', hfin, hkept, by simpa using ⟨hkept id hdone, hall⟩⟩⟩
    · next hdone =>
      have hvisit := visitSound_visit (windows.length + 1) ⟨[], done⟩ id hs
        (hrest id List.mem_cons_self) (by simp) hdone (by simp) (by simp)
      revert hvisit
      generalize visit windows edges (windows.length + 1) id ⟨[], done⟩ = out
      intro hvisit
      cases hvisit with
      | @cycle s' found => exact ⟨s'.path, rfl, .inl found⟩
      | @done s' valid path kept visited =>
        obtain ⟨path', done'⟩ := s'
        obtain rfl : path' = [] := path
        obtain ⟨l, hl, hcycle | ⟨hnil, last, hfin, hkept, hall⟩⟩ := ih hrest' valid
        · exact ⟨l, hl, .inl hcycle⟩
        · refine ⟨l, hl, .inr ⟨hnil, last, hfin, fun a ha => hkept a (kept a ha), ?_⟩⟩
          simpa using ⟨hkept id (visited id rfl), hall⟩

end Search

/-! ## What the search returns -/

/-- The search ends; what it returns is a cycle of receives between windows at `index_offset` 0, or
nothing where there is none. -/
theorem sameIndexCycle_correct (windows : List String) (edges : List TaskGraphEdge) :
    ∃ l, sameIndexCycle windows edges = some l ∧
      (l ≠ [] ↔ ∃ cycle, IsCycle (Receives windows edges) cycle) ∧
      (l ≠ [] → IsCycle (Receives windows edges) l) := by
  obtain ⟨l, hl, hcycle | ⟨rfl, done, hfin, -, hall⟩⟩ := @Search.searchFrom_spec
    windows edges windows (fun _ h => h) [] ⟨by simp, by simp, by simp, .nil, by simp⟩
  · exact ⟨l, hl, ⟨fun _ => ⟨l, hcycle⟩, fun _ => hcycle.ne_nil⟩, fun _ => hcycle⟩
  · refine ⟨[], hl, ⟨fun h => absurd rfl h, ?_⟩, fun h => absurd rfl h⟩
    rintro ⟨cycle, hcycle⟩
    obtain ⟨id, -, hid⟩ := hcycle.exists_transGen
    obtain ⟨b, ⟨e, -, -, -, hwindow, -⟩, -⟩ := Relation.TransGen.head'_iff.mp hid
    exact absurd hid (hfin.acyclic (hall id hwindow))

/-- A window fed by an ingest node, and beside it two nodes of another kind that feed one another. -/
def besideWindow : List TaskGraphEdge :=
  [⟨"ingest", "w", "w", "input", 0⟩, ⟨"x", "output", "y", "input", 0⟩, ⟨"y", "output", "x", "input", 0⟩]

/-- The two are a cycle of edges at `index_offset` 0, but not one of receives between windows. -/
theorem sameIndexCycle_besideWindow :
    IsCycle (fun a b => ∃ e ∈ besideWindow, e.fromNode = a ∧ e.toNode = b ∧ e.indexOffset = 0)
      ["x", "y", "x"] ∧
    sameIndexCycle ["w"] besideWindow = some [] := by
  refine ⟨⟨?_, by simp, by simp, by simp⟩, by decide⟩
  simp [besideWindow]

end CudaqQec
