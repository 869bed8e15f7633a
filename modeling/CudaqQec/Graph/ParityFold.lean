import CudaqQec.Graph.PathParity
import Mathlib.Data.List.Dedup
import Mathlib.Data.List.GetD
import Mathlib.Tactic.Ring

/-!
# The parity of paths stands for the XOR nodes

Every path from the output backwards ends at a streaming node or at another node that is no `xor_node`
(`expand`). What the loop over the nodes counts is how often each of these ends is reached (`Tracks`); the
value of the output is the XOR over all of them (`evaluate_expand`), of which an even number of times
leaves nothing. So the composed values are right exactly when no one-shot node reaches the output along
an odd number of paths: `folds_iff`.
-/

namespace CudaqQec.PathParity

open Frames

namespace PathState

def ofCount (n : Nat) : PathState := ⟨decide (n % 2 = 1), decide (0 < n)⟩

theorem join_ofCount (m n : Nat) : (ofCount m).join (ofCount n) = ofCount (m + n) := by
  unfold join ofCount
  congr 1
  · by_cases hm : m % 2 = 1
    · by_cases hn : n % 2 = 1
      · have : ¬ (m + n) % 2 = 1 := by omega
        simp [hm, hn, this]
      · have : (m + n) % 2 = 1 := by omega
        simp [hm, hn, this]
    · by_cases hn : n % 2 = 1
      · have : (m + n) % 2 = 1 := by omega
        simp [hm, hn, this]
      · have : ¬ (m + n) % 2 = 1 := by omega
        simp [hm, hn, this]
  · by_cases hm : 0 < m
    · have : 0 < m + n := by omega
      simp [hm, this]
    · have : m = 0 := by omega
      simp [this]

theorem join_assoc (s t u : PathState) : (s.join t).join u = s.join (t.join u) := by
  unfold join
  rw [Bool.xor_assoc, Bool.or_assoc]

theorem join_none (s : PathState) : s.join none = s := by
  cases s
  simp [join, none]

end PathState

open PathState (ofCount join_ofCount join_assoc join_none)

namespace TaskGraph

variable (g : TaskGraph)

/-- What `compile_wires` throws for otherwise: an output comes from a logical outcome; corrections go to
later nodes; and an `xor_node` has its two inputs or more, each with one wire and a logical outcome. -/
structure Compiled : Prop where
  sinks : ∀ p ∈ g.sinkWires, g.carries p = true
  order : ∀ j, ∀ w ∈ g.wiresTo j, ∀ p, w.source = some p → g.carries p = true → p.node < j
  xor : ∀ j n, g.nodes[j]? = some (.xor n) → 2 ≤ n ∧
    ((g.wiresTo j).map Wire.toSlot).Perm (List.range n) ∧
    ∀ w ∈ g.wiresTo j, ∃ p, w.source = some p ∧ g.carries p = true

def correctionInputs (j : Nat) : List Port :=
  (g.wiresTo j).filterMap fun w => w.source.filter g.carries

def expand (ps : List Port) (j : Nat) : List Port :=
  if g.isXor j then ps.flatMap fun p => if p.node = j then g.correctionInputs j else [p] else ps

variable {g} {r : Reach} {ps : List Port} {n j k : Nat} {p q : Port} {reach : PathState}

/-! ## The loop counts the paths -/

theorem propagate_node (wires : List Wire) (r : Reach) :
    (wires.foldl (g.propagate reach) r).node = r.node := by
  induction wires generalizing r with
  | nil => rfl
  | cons w wires ih =>
    rw [List.foldl_cons, ih]
    unfold propagate
    cases w.source with
    | none => rfl
    | some p =>
      dsimp only
      split <;> rfl

theorem propagate_output (wires : List Wire) (r : Reach) (c : Nat) (q : Port) :
    (wires.foldl (g.propagate (ofCount c)) r).output q =
      (r.output q).join (ofCount (c * (wires.filterMap fun w => w.source.filter g.carries).count q)) := by
  induction wires generalizing r with
  | nil =>
    change r.output q = (r.output q).join .none
    rw [join_none]
  | cons w wires ih =>
    rw [List.foldl_cons, ih]
    unfold propagate
    cases hsource : w.source with
    | none => simp [hsource]
    | some p =>
      dsimp only
      by_cases hcarries : g.carries p = true
      · rw [if_pos hcarries, List.filterMap_cons_some (b := p) (by simp [hsource, hcarries])]
        dsimp only
        by_cases hq : q = p
        · subst hq
          rw [if_pos rfl, List.count_cons_self, join_assoc, join_ofCount]
          congr 2
          ring
        · rw [if_neg hq, List.count_cons_of_ne (Ne.symm hq)]
      · rw [if_neg hcarries, List.filterMap_cons_none (by simp [hsource, hcarries])]

/-! ## Ports and nodes in order -/

theorem slot_lt (h : g.carries p = true) : p.slot < g.numSlots p.node := by
  unfold carries at h
  unfold numSlots
  cases hnode : g.nodes[p.node]? with
  | none => simp [hnode] at h
  | some n =>
    simp only [hnode] at h
    by_contra hlt
    rw [List.getD_eq_default _ _ (Nat.not_lt.mp hlt)] at h
    cases h

theorem node_lt (h : g.carries p = true) : p.node < g.size := by
  by_contra hlt
  have hnone : g.nodes[p.node]? = none := List.getElem?_eq_none (Nat.not_lt.mp hlt)
  simp [carries, hnone] at h

/-- Over the slots of a node, every end at the node is counted once. -/
theorem nodeReach_eq (hcount : ∀ slot, r.output ⟨j, slot⟩ = ofCount (ps.count ⟨j, slot⟩))
    (hcarries : ∀ p ∈ ps, g.carries p = true) :
    g.nodeReach r j = ofCount ((ps.map Port.node).count j) := by
  -- by induction on the number of slots, of which every end has one
  -- by induction on the number of slots, of which every end has one
  have hslots : ∀ m, (List.range m).foldl (fun s slot => s.join (r.output ⟨j, slot⟩)) .none =
      ofCount (ps.countP fun p => p.node = j ∧ p.slot < m) := by
    intro m
    induction m with
    | zero =>
      have hzero : ps.countP (fun p => decide (p.node = j ∧ p.slot < 0)) = 0 := by
        apply List.countP_eq_zero.mpr
        simp
      rw [hzero]
      rfl
    | succ m ih =>
      rw [List.range_succ, List.foldl_append, ih, List.foldl_cons, List.foldl_nil, hcount,
        join_ofCount]
      congr 1
      clear ih hcount hcarries
      induction ps with
      | nil => rfl
      | cons p ps ih =>
        rw [List.countP_cons, List.countP_cons, List.count_cons, ← ih]
        obtain ⟨i, slot⟩ := p
        simp only [decide_eq_true_eq, beq_iff_eq, Port.mk.injEq]
        by_cases hi : i = j
        · by_cases hslot : slot = m
          · simp [hi, hslot]
            omega
          · have : slot < m + 1 ↔ slot < m := by omega
            simp [hi, hslot, this]
            omega
        · simp [hi]
  unfold nodeReach
  rw [hslots]
  congr 1
  unfold List.count
  rw [List.countP_map]
  apply List.countP_congr
  intro p hp
  have := slot_lt (hcarries p hp)
  simp only [decide_eq_true_eq, Function.comp_apply, beq_iff_eq]
  constructor
  · exact fun h => h.1
  · rintro rfl
    exact ⟨rfl, this⟩

/-! ## What the loop has counted -/

/-- The paths found from the outputs back to node `n`. -/
structure Tracks (g : TaskGraph) (n : Nat) (r : Reach) (ps : List Port) : Prop where
  count : ∀ p, p.node < n ∨ g.isXor p.node = false → r.output p = ofCount (ps.count p)
  carries : ∀ p ∈ ps, g.carries p = true
  ends : ∀ p ∈ ps, n ≤ p.node → g.isXor p.node = false
  node : ∀ j, n ≤ j → g.isXor j = false → r.node j = ofCount ((ps.map Port.node).count j)

theorem reachStep_node (r : Reach) (j i : Nat) :
    (g.reachStep r j).node i = if i = j then g.nodeReach r j else r.node i := by
  unfold reachStep
  dsimp only
  split
  · rfl
  · rw [propagate_node]

/-- What reaches a node is not touched once the loop has passed it. -/
theorem sweep_node (n : Nat) (r : Reach) (h : n ≤ j) :
    (sweep g.reachStep n r).node j = r.node j := by
  induction n generalizing r with
  | zero => rfl
  | succ n ih =>
    change (sweep g.reachStep n (g.reachStep r n)).node j = _
    rw [ih _ (by omega), reachStep_node, if_neg (by omega)]

theorem mem_correctionInputs :
    q ∈ g.correctionInputs j ↔ ∃ w ∈ g.wiresTo j, w.source = some q ∧ g.carries q = true := by
  unfold correctionInputs
  simp [List.mem_filterMap, Option.filter_eq_some_iff]

theorem expand_of_not (h : g.isXor j = false) : g.expand ps j = ps := by
  unfold expand
  rw [h]
  rfl

theorem mem_expand (hxor : g.isXor j = true) :
    q ∈ g.expand ps j ↔
      (q ∈ ps ∧ q.node ≠ j) ∨ q ∈ g.correctionInputs j ∧ ∃ p ∈ ps, p.node = j := by
  unfold expand
  rw [if_pos hxor, List.mem_flatMap]
  constructor
  · rintro ⟨p, hp, hq⟩
    by_cases hnode : p.node = j
    · rw [if_pos hnode] at hq
      exact .inr ⟨hq, p, hp, hnode⟩
    · rw [if_neg hnode, List.mem_singleton] at hq
      subst hq
      exact .inl ⟨hp, hnode⟩
  · rintro (⟨hq, hnode⟩ | ⟨hq, p, hp, hnode⟩)
    · exact ⟨q, hq, by simp [hnode]⟩
    · exact ⟨p, hp, by simp [hnode, hq]⟩

theorem count_expand (hxor : g.isXor j = true) (hne : q.node ≠ j) :
    (g.expand ps j).count q =
      ps.count q + (ps.map Port.node).count j * (g.correctionInputs j).count q := by
  unfold expand
  rw [if_pos hxor]
  induction ps with
  | nil => simp
  | cons p ps ih =>
    rw [List.flatMap_cons, List.count_append, ih, List.map_cons, List.count_cons, List.count_cons]
    by_cases hp : p.node = j
    · have hpq : p ≠ q := fun h => hne (h ▸ hp)
      simp only [hp, if_true, beq_self_eq_true, beq_iff_eq, hpq, if_false]
      ring
    · by_cases hpq : p = q
      · subst hpq
        simp only [hp, if_false, List.count_singleton_self, beq_self_eq_true, if_true, beq_iff_eq]
        ring
      · simp only [hp, if_false, List.count_singleton, beq_iff_eq, hpq]
        ring

theorem correctionInputs_carries (h : q ∈ g.correctionInputs j) : g.carries q = true := by
  obtain ⟨_, _, _, hcarries⟩ := mem_correctionInputs.mp h
  exact hcarries

theorem correctionInputs_lt (hc : g.Compiled) (h : q ∈ g.correctionInputs j) : q.node < j := by
  obtain ⟨w, hw, hsource, hcarries⟩ := mem_correctionInputs.mp h
  exact hc.order j w hw q hsource hcarries

/-- The ends at later nodes stay. -/
theorem count_node_expand {i : Nat} (hc : g.Compiled) (hxor : g.isXor j = true) (hle : j ≤ i)
    (hne : i ≠ j) : ((g.expand ps j).map Port.node).count i = (ps.map Port.node).count i := by
  unfold expand
  rw [if_pos hxor]
  induction ps with
  | nil => rfl
  | cons p ps ih =>
    rw [List.flatMap_cons, List.map_append, List.count_append, ih, List.map_cons, List.count_cons]
    by_cases hp : p.node = j
    · have hnew : i ∉ (g.correctionInputs j).map Port.node := by
        intro hi
        obtain ⟨q, hq, rfl⟩ := List.mem_map.mp hi
        have := correctionInputs_lt hc hq
        omega
      rw [if_pos hp, List.count_eq_zero_of_not_mem hnew, hp, if_neg (by simpa using Ne.symm hne),
        Nat.zero_add, Nat.add_zero]
    · rw [if_neg hp, List.map_singleton, List.count_singleton, Nat.add_comm]

theorem reachStep_output (r : Reach) (c : Nat) (hreach : g.nodeReach r j = ofCount c) (q : Port) :
    (g.reachStep r j).output q =
      if (g.streamingWidth j).isSome then r.output q
      else (r.output q).join (ofCount (c * (g.correctionInputs j).count q)) := by
  unfold reachStep
  dsimp only
  split
  · rfl
  · rw [hreach, propagate_output]
    rfl

theorem streamingWidth_of_isXor (h : g.isXor j = true) : g.streamingWidth j = none := by
  unfold isXor at h
  unfold streamingWidth
  split at h
  · rename_i hnode
    rw [hnode]
  · cases h

/-! ## One node, and the loop -/

/-- A node of the loop counts the paths through it. A node that is neither streaming nor an `xor_node`
must not pass any on. -/
theorem Tracks.step (hc : g.Compiled) (h : Tracks g (n + 1) r ps)
    (hblocked : g.isXor n = false → g.streamingWidth n = none → g.correctionInputs n ≠ [] →
      (g.nodeReach r n).reachable = false) :
    Tracks g n (g.reachStep r n) (g.expand ps n) := by
  have hreach : g.nodeReach r n = ofCount ((ps.map Port.node).count n) := by
    apply nodeReach_eq _ h.carries
    intro slot
    exact h.count ⟨n, slot⟩ (.inl (Nat.lt_succ_self n))
  -- an `xor_node` passes its paths on to its inputs
  by_cases hxor : g.isXor n = true
  · have hnone := streamingWidth_of_isXor hxor
    constructor
    · intro p hp
      have hne : p.node ≠ n := by
        rintro rfl
        rcases hp with hlt | hnot
        · exact Nat.lt_irrefl _ hlt
        · rw [hxor] at hnot
          cases hnot
      rw [reachStep_output r _ hreach, hnone, h.count p (hp.imp_left Nat.lt_succ_of_lt),
        count_expand hxor hne, ← join_ofCount]
      rfl
    · intro p hp
      rcases (mem_expand hxor).mp hp with ⟨hp, -⟩ | ⟨hp, -⟩
      · exact h.carries p hp
      · exact correctionInputs_carries hp
    · intro p hp hle
      rcases (mem_expand hxor).mp hp with ⟨hp, hne⟩ | ⟨hp, -⟩
      · exact h.ends p hp (by omega)
      · have := correctionInputs_lt hc hp
        omega
    · intro j hj hnot
      have hne : j ≠ n := by
        rintro rfl
        rw [hxor] at hnot
        cases hnot
      rw [reachStep_node, if_neg hne, h.node j (by omega) hnot]
      rw [count_node_expand hc hxor hj hne]
  -- any other node keeps them, and adds to no output what could differ
  · have hnot : g.isXor n = false := Bool.eq_false_iff.mpr hxor
    rw [expand_of_not hnot]
    have hsame : ∀ q, (g.reachStep r n).output q = r.output q := by
      intro q
      rw [reachStep_output r _ hreach]
      split
      · rfl
      · rename_i hstreams
        have hstreams : g.streamingWidth n = none := by simpa using hstreams
        by_cases hinputs : g.correctionInputs n = []
        · rw [hinputs, List.count_nil, Nat.mul_zero]
          exact join_none _
        · have hzero := hblocked hnot hstreams hinputs
          rw [hreach] at hzero
          have hzero : (ps.map Port.node).count n = 0 := by
            simpa only [ofCount, decide_eq_false_iff_not, Nat.pos_iff_ne_zero, not_not] using hzero
          rw [hzero, Nat.zero_mul]
          exact join_none _
    constructor
    · intro p hp
      rw [hsame]
      apply h.count
      rcases hp with hlt | hp
      · exact .inl (Nat.lt_succ_of_lt hlt)
      · exact .inr hp
    · exact h.carries
    · intro p hp hle
      rcases Nat.eq_or_lt_of_le hle with heq | hlt
      · rw [← heq]
        exact hnot
      · exact h.ends p hp hlt
    · intro j hj hnotj
      rw [reachStep_node]
      split
      · rename_i heq
        rw [heq]
        exact hreach
      · exact h.node j (by omega) hnotj

theorem Tracks.sweep (hc : g.Compiled) (h : Tracks g n r ps)
    (hblocked : ∀ i < n, g.isXor i = false → g.streamingWidth i = none → g.correctionInputs i ≠ [] →
      ((sweep g.reachStep n r).node i).reachable = false) :
    Tracks g 0 (sweep g.reachStep n r) (sweep g.expand n ps) := by
  induction n generalizing r ps with
  | zero => exact h
  | succ n ih =>
    have hstep : Tracks g n (g.reachStep r n) (g.expand ps n) := by
      apply h.step hc
      intro hxor hstreams hinputs
      have hfinal := hblocked n (Nat.lt_succ_self n) hxor hstreams hinputs
      -- the loop does not come back to a node
      change ((PathParity.sweep g.reachStep n (g.reachStep r n)).node n).reachable = false at hfinal
      rwa [sweep_node n _ (Nat.le_refl n), reachStep_node, if_pos rfl] at hfinal
    exact ih hstep fun i hi => hblocked i (Nat.lt_succ_of_lt hi)

/-- Before the loop. -/
theorem Tracks.seed (h : g.carries p = true) : Tracks g g.size (TaskGraph.seed p) [p] := by
  constructor
  · intro q _
    change (if q = p then (⟨true, true⟩ : PathState) else .none) = _
    rw [List.count_singleton]
    by_cases hq : q = p
    · rw [if_pos hq, if_pos (by simp [hq])]
      rfl
    · rw [if_neg hq, if_neg (by simpa using Ne.symm hq)]
      rfl
  · intro q hq
    rwa [List.mem_singleton.mp hq]
  · intro q hq hle
    have := node_lt h
    rw [List.mem_singleton.mp hq] at hle
    omega
  · intro j hj _
    have := node_lt h
    have hne : p.node ≠ j := by omega
    rw [List.map_singleton, List.count_singleton, if_neg (by simpa using hne)]
    rfl

def ends (g : TaskGraph) (p : Port) : List Port := sweep g.expand g.size [p]

theorem blocked_of_conflictFree (hfree : g.streamingConflictFree = true) (hk : k < g.sinkWires.length)
    (hj : j < g.size) (hxor : g.isXor j = false) (hstreams : g.streamingWidth j = none)
    (hinputs : g.correctionInputs j ≠ []) : ((g.reachOf k).node j).reachable = false := by
  unfold streamingConflictFree at hfree
  have hno : g.xorFoldConflict = false := by
    simpa using (Bool.and_eq_true_iff.mp hfree).1
  by_contra hreach
  have hhas : g.hasCorrectionInput j = true := by
    obtain ⟨q, hq⟩ := List.exists_mem_of_ne_nil _ hinputs
    obtain ⟨w, hw, hsource, hcarries⟩ := mem_correctionInputs.mp hq
    exact List.any_eq_true.mpr ⟨w, hw, by simp [hsource, hcarries]⟩
  have hreaches : (List.range g.sinkWires.length).any
      (fun k => ((g.reachOf k).node j).reachable) = true :=
    List.any_eq_true.mpr ⟨k, List.mem_range.mpr hk, by simpa using hreach⟩
  have hconflict : g.xorFoldConflict = true := by
    apply List.any_eq_true.mpr
    refine ⟨j, List.mem_range.mpr hj, ?_⟩
    rw [hhas, hreaches, hstreams, hxor]
    rfl
  rw [hno] at hconflict
  cases hconflict

/-- The loop counts how often each end is reached. -/
theorem tracks_reachOf (hc : g.Compiled) (hfree : g.streamingConflictFree = true)
    (hp : g.sinkWires[k]? = some p) : Tracks g 0 (g.reachOf k) (g.ends p) := by
  have hk : k < g.sinkWires.length := (List.getElem?_eq_some_iff.mp hp).1
  have hreach : g.reachOf k = PathParity.sweep g.reachStep g.size (seed p) := by
    unfold reachOf
    rw [hp]
  rw [hreach]
  apply (Tracks.seed (hc.sinks p (List.mem_of_getElem? hp))).sweep hc
  intro i hi hxor hstreams hinputs
  rw [← hreach]
  exact blocked_of_conflictFree hfree hk hi hxor hstreams hinputs

/-! ## The value of an output -/

variable {bits : Nat → List UInt8} {other : Port → List UInt8} {w : Nat}

theorem xorLogical_of_length {acc v : List UInt8} (h : acc.length = v.length) :
    xorLogical acc v = .ok (xorInto acc v) := by
  unfold xorLogical
  rw [if_neg (not_not.mpr h)]

theorem foldlM_xorLogical {acc : List UInt8} (vs : List (List UInt8)) (hacc : acc.length = w)
    (hvs : ∀ v ∈ vs, v.length = w) : vs.foldlM xorLogical acc = .ok (xorAll acc vs) := by
  induction vs generalizing acc with
  | nil => rfl
  | cons v vs ih =>
    rw [List.foldlM_cons, xorLogical_of_length (hacc.trans (hvs v (List.mem_cons_self ..)).symm)]
    exact ih (by rw [length_xorInto, hacc]) fun v hv => hvs v (List.mem_cons_of_mem _ hv)

/-- An `xor_node` with inputs of one width gives their XOR. -/
theorem xorOf_ok {vs : List (List UInt8)} (hne : vs ≠ []) (hvs : ∀ v ∈ vs, v.length = w) :
    xorOf (vs.map .ok) = .ok (xorAll (zeros w) vs) := by
  have hall : (vs.map .ok).mapM id = (.ok vs : Except Error (List (List UInt8))) := by
    clear hne hvs
    induction vs with
    | nil => rfl
    | cons v vs ih =>
      rw [List.map_cons, List.mapM_cons, ih]
      rfl
  unfold xorOf
  rw [hall]
  cases vs with
  | nil => exact absurd rfl hne
  | cons first rest =>
    have hfirst := hvs first (List.mem_cons_self ..)
    change rest.foldlM xorLogical first = _
    rw [foldlM_xorLogical rest hfirst fun v hv => hvs v (List.mem_cons_of_mem _ hv)]
    change _ = Except.ok (xorAll (xorInto (zeros w) first) rest)
    rw [← hfirst, zeros_xorInto]

/-- The later nodes do not change a value. -/
theorem evaluate_of_lt (hp : p.node < n) :
    g.evaluate bits other n p = g.evaluate bits other (p.node + 1) p := by
  induction n with
  | zero => omega
  | succ n ih =>
    by_cases heq : p.node = n
    · rw [heq]
    · rw [evaluate, if_neg heq]
      exact ih (by omega)

theorem evaluate_ends (hp : g.carries p = true) (hxor : g.isXor p.node = false) :
    g.evaluate bits other g.size p =
      .ok (if (g.streamingWidth p.node).isSome then bits p.node else other p) := by
  rw [evaluate_of_lt (node_lt hp), evaluate, if_pos rfl]
  unfold isXor at hxor
  unfold streamingWidth
  cases hnode : g.nodes[p.node]? with
  | none => rfl
  | some node =>
    cases node with
    | streaming width logical => rfl
    | xor m => simp [hnode] at hxor
    | oneShot logical => rfl

theorem find_toSlot {ws : List Wire} {x : Wire} (hnodup : (ws.map Wire.toSlot).Nodup) (hx : x ∈ ws) :
    ws.find? (fun w => w.toSlot = x.toSlot) = some x := by
  induction ws with
  | nil => cases hx
  | cons w ws ih =>
    rw [List.map_cons, List.nodup_cons] at hnodup
    rcases List.mem_cons.mp hx with rfl | hx
    · simp
    · have hne : w.toSlot ≠ x.toSlot := by
        intro heq
        exact hnodup.1 (heq ▸ List.mem_map_of_mem hx)
      rw [List.find?_cons_of_neg (by simpa using hne)]
      exact ih hnodup.2 hx

/-! ## The inputs of an `xor_node` -/

/-- The inputs of an `xor_node` are those that its wires carry corrections from. -/
theorem xorInputs_perm (hc : g.Compiled) {m : Nat} (hnode : g.nodes[j]? = some (.xor m)) :
    (g.xorInputs j m).Perm (g.correctionInputs j) := by
  obtain ⟨-, hslots, hsources⟩ := hc.xor j m hnode
  have hnodup : ((g.wiresTo j).map Wire.toSlot).Nodup := hslots.nodup_iff.mpr List.nodup_range
  have hinputs : g.correctionInputs j = ((g.wiresTo j).map Wire.toSlot).filterMap fun slot =>
      ((g.wiresTo j).find? fun w => w.toSlot = slot).bind Wire.source := by
    unfold correctionInputs
    rw [List.filterMap_map]
    apply List.filterMap_congr
    intro w hw
    obtain ⟨p, hp, hcarries⟩ := hsources w hw
    rw [Function.comp_apply, find_toSlot hnodup hw, Option.bind_some, hp]
    simp [hcarries]
  rw [hinputs]
  exact (hslots.filterMap _).symm

theorem correctionInputs_ne_nil (hc : g.Compiled) {m : Nat} (hnode : g.nodes[j]? = some (.xor m)) :
    g.correctionInputs j ≠ [] := by
  obtain ⟨hm, hslots, hsources⟩ := hc.xor j m hnode
  have hlength := hslots.length_eq
  rw [List.length_map, List.length_range] at hlength
  obtain ⟨w, hw⟩ := List.exists_mem_of_length_pos (l := g.wiresTo j) (by omega)
  obtain ⟨p, hp, hcarries⟩ := hsources w hw
  exact List.ne_nil_of_mem (mem_correctionInputs.mpr ⟨w, hw, hp, hcarries⟩)

def value (g : TaskGraph) (bits : Nat → List UInt8) (other : Port → List UInt8) (p : Port) :
    List UInt8 := (g.evaluate bits other g.size p).toOption.getD []

/-! ## Outputs whose ends agree -/

/-- A port with a value of the width of the output. -/
structure Good (g : TaskGraph) (bits : Nat → List UInt8) (other : Port → List UInt8) (w : Nat)
    (p : Port) : Prop where
  evaluate : g.evaluate bits other g.size p = .ok (g.value bits other p)
  length : (g.value bits other p).length = w

theorem value_of_ok {v : List UInt8} (h : g.evaluate bits other g.size p = .ok v) :
    g.value bits other p = v := by
  unfold value
  rw [h]
  rfl

/-- An `xor_node` gives the XOR of its correction inputs. -/
theorem evaluate_xor (hc : g.Compiled) (hxor : g.isXor p.node = true) (hp : g.carries p = true)
    (h : ∀ q ∈ g.correctionInputs p.node, Good g bits other w q) :
    g.evaluate bits other g.size p =
      .ok (xorAll (zeros w) ((g.correctionInputs p.node).map (g.value bits other))) := by
  have hxor' := hxor
  unfold isXor at hxor'
  split at hxor'
  · rename_i m hnode
    have hperm := xorInputs_perm hc hnode
    have hinputs : (g.xorInputs p.node m).map (g.evaluate bits other p.node) =
        ((g.xorInputs p.node m).map (g.value bits other)).map .ok := by
      rw [List.map_map]
      apply List.map_congr_left
      intro q hq
      have hq := hperm.mem_iff.mp hq
      rw [Function.comp_apply, ← (h q hq).evaluate, evaluate_of_lt (correctionInputs_lt hc hq),
        evaluate_of_lt (node_lt (correctionInputs_carries hq))]
    have hne : (g.xorInputs p.node m).map (g.value bits other) ≠ [] := by
      intro hnil
      rw [List.map_eq_nil_iff] at hnil
      rw [hnil] at hperm
      exact correctionInputs_ne_nil hc hnode (hperm.symm.eq_nil)
    have hlengths : ∀ v ∈ (g.xorInputs p.node m).map (g.value bits other), v.length = w := by
      intro v hv
      obtain ⟨q, hq, rfl⟩ := List.mem_map.mp hv
      exact (h q (hperm.mem_iff.mp hq)).length
    rw [evaluate_of_lt (node_lt hp), evaluate, if_pos rfl, hnode]
    dsimp only
    rw [hinputs, xorOf_ok hne hlengths]
    exact congrArg Except.ok (xorAll_perm _ (hperm.map _))
  · cases hxor'

/-- Back over one node, the XOR of the values stays the same. -/
theorem values_expand (hc : g.Compiled) (hcarries : ∀ p ∈ ps, g.carries p = true)
    (h : ∀ q ∈ g.expand ps j, Good g bits other w q) :
    (∀ p ∈ ps, Good g bits other w p) ∧ ∀ d : List UInt8, d.length = w →
      xorAll d (ps.map (g.value bits other)) =
        xorAll d ((g.expand ps j).map (g.value bits other)) := by
  by_cases hxor : g.isXor j = true
  · unfold expand at h ⊢
    rw [if_pos hxor] at h ⊢
    induction ps with
    | nil => exact ⟨h, fun d _ => rfl⟩
    | cons p ps ih =>
      rw [List.flatMap_cons] at h ⊢
      obtain ⟨hgood, hrest⟩ := ih (fun q hq => hcarries q (List.mem_cons_of_mem _ hq))
        fun q hq => h q (List.mem_append_right _ hq)
      have hhead : Good g bits other w p ∧ ∀ d : List UInt8, d.length = w →
          xorInto d (g.value bits other p) = xorAll d
            ((if p.node = j then g.correctionInputs j else [p]).map (g.value bits other)) := by
        by_cases hnode : p.node = j
        · subst hnode
          have heval := evaluate_xor hc hxor (hcarries p (List.mem_cons_self ..))
            fun q hq => h q (List.mem_append_left _ (by rwa [if_pos rfl]))
          have hvalue := value_of_ok heval
          constructor
          · exact ⟨by rw [hvalue, heval], by rw [hvalue, length_xorAll, length_zeros]⟩
          · intro d hd
            rw [if_pos rfl, hvalue, ← hd, xorInto_xorAll]
        · rw [if_neg hnode] at h ⊢
          exact ⟨h p (List.mem_append_left _ (List.mem_singleton_self p)), fun d _ => rfl⟩
      constructor
      · intro q hq
        rcases List.mem_cons.mp hq with rfl | hq
        · exact hhead.1
        · exact hgood q hq
      · intro d hd
        rw [List.map_append, xorAll_append, ← hhead.2 d hd]
        exact hrest _ (by rw [length_xorInto, hd])
  · rw [expand_of_not (Bool.eq_false_iff.mpr hxor)] at h ⊢
    exact ⟨h, fun d _ => rfl⟩

theorem expand_carries (h : ∀ p ∈ ps, g.carries p = true) :
    ∀ p ∈ g.expand ps j, g.carries p = true := by
  intro p hp
  by_cases hxor : g.isXor j = true
  · rcases (mem_expand hxor).mp hp with ⟨hp, -⟩ | ⟨hp, -⟩
    · exact h p hp
    · exact correctionInputs_carries hp
  · rw [expand_of_not (Bool.eq_false_iff.mpr hxor)] at hp
    exact h p hp

theorem values_sweep (hc : g.Compiled) (n : Nat) (hcarries : ∀ p ∈ ps, g.carries p = true)
    (h : ∀ q ∈ sweep g.expand n ps, Good g bits other w q) :
    (∀ p ∈ ps, Good g bits other w p) ∧ ∀ d : List UInt8, d.length = w →
      xorAll d (ps.map (g.value bits other)) =
        xorAll d ((sweep g.expand n ps).map (g.value bits other)) := by
  induction n generalizing ps with
  | zero => exact ⟨h, fun d _ => rfl⟩
  | succ n ih =>
    obtain ⟨hgood, hrest⟩ := ih (expand_carries hcarries) h
    obtain ⟨hgood', hstep⟩ := values_expand hc hcarries hgood
    exact ⟨hgood', fun d hd => (hstep d hd).trans (hrest d hd)⟩

/-- The value of an output is the XOR over the ends of its paths. -/
theorem evaluate_eq_ends (hc : g.Compiled) (hp : g.carries p = true)
    (h : ∀ q ∈ g.ends p, Good g bits other w q) :
    g.evaluate bits other g.size p =
      .ok (xorAll (zeros w) ((g.ends p).map (g.value bits other))) := by
  have hcarries : ∀ q ∈ [p], g.carries q = true := by simpa using hp
  obtain ⟨hgood, hvalues⟩ := values_sweep hc g.size hcarries h
  have hp' := hgood p (List.mem_singleton_self p)
  have := hvalues (zeros w) (length_zeros w)
  change xorInto (zeros w) (g.value bits other p) = xorAll _ ((g.ends p).map _) at this
  rw [hp'.evaluate, ← this, ← hp'.length, zeros_xorInto]

/-! ## The segment of an output -/

theorem outputOffset_succ (k : Nat) : g.outputOffset (k + 1) = g.outputOffset k + g.width k := by
  simp [outputOffset, List.range_succ]

theorem outputOffset_le {k' : Nat} (h : k < k') :
    g.outputOffset k + g.width k ≤ g.outputOffset k' := by
  induction k' with
  | zero => cases h
  | succ k' ih =>
    rw [outputOffset_succ]
    rcases Nat.eq_or_lt_of_le (Nat.le_of_lt_succ h) with heq | hlt
    · subst heq
      exact Nat.le_refl _
    · exact Nat.le_trans (ih hlt) (Nat.le_add_right ..)

theorem getElem?_segment (values : List UInt8) (k i : Nat) :
    (g.segment values k)[i]? = if i < g.width k then values[g.outputOffset k + i]? else none := by
  unfold segment
  rw [List.getElem?_take, List.getElem?_drop]

/-! ## Writing into a segment -/

/-- XORing onto the segment of one output changes that of no other. -/
theorem segment_xorAt {k' : Nat} {values v : List UInt8} (hv : v.length = g.width k')
    (h : g.outputOffset k' ≤ values.length) :
    g.segment (xorAt values (g.outputOffset k') v) k =
      if k = k' then xorInto (g.segment values k) v else g.segment values k := by
  by_cases hk : k = k'
  · subst hk
    rw [if_pos rfl]
    apply List.ext_getElem?
    intro i
    have hat := getElem?_xorAt values (g.outputOffset k) v (g.outputOffset k + i) h
    rw [if_neg (by omega), Nat.add_sub_cancel_left] at hat
    rw [getElem?_xorInto, getElem?_segment, getElem?_segment, hat]
    split <;> rfl
  · rw [if_neg hk]
    apply List.ext_getElem?
    intro i
    rw [getElem?_segment, getElem?_segment, getElem?_xorAt _ _ _ _ h]
    split
    · rename_i hi
      rcases Nat.lt_or_gt_of_ne hk with hlt | hgt
      · have := outputOffset_le (g := g) hlt
        rw [if_pos (by omega)]
      · have := outputOffset_le (g := g) hgt
        have hbeyond : v.getD (g.outputOffset k + i - g.outputOffset k') 0 = 0 :=
          List.getD_eq_default _ _ (by omega)
        rw [if_neg (by omega), hbeyond]
        simp
    · rfl

theorem segment_xorAts {v : List UInt8} (ks : List Nat) (hks : ks.Nodup) (values : List UInt8)
    (hv : ∀ k' ∈ ks, v.length = g.width k') (h : ∀ k' ∈ ks, g.outputOffset k' ≤ values.length) :
    g.segment ((ks.map g.outputOffset).foldl (fun values offset => xorAt values offset v) values) k =
      if k ∈ ks then xorInto (g.segment values k) v else g.segment values k := by
  induction ks generalizing values with
  | nil => rfl
  | cons k' ks ih =>
    rw [List.nodup_cons] at hks
    rw [List.map_cons, List.foldl_cons, ih hks.2 _ (fun k hk => hv k (List.mem_cons_of_mem _ hk))
        (fun k hk => by simpa using h k (List.mem_cons_of_mem _ hk)),
      segment_xorAt (hv k' (List.mem_cons_self ..)) (h k' (List.mem_cons_self ..))]
    by_cases hk : k = k'
    · subst hk
      rw [if_neg hks.1, if_pos rfl, if_pos (List.mem_cons_self ..)]
    · rw [if_neg hk]
      simp only [List.mem_cons, hk, false_or]

theorem length_xorAts (v : List UInt8) (offsets : List Nat) (values : List UInt8) :
    (offsets.foldl (fun values offset => xorAt values offset v) values).length = values.length := by
  induction offsets generalizing values with
  | nil => rfl
  | cons offset offsets ih => rw [List.foldl_cons, ih, length_xorAt]

def contributors (g : TaskGraph) (k : Nat) : List Nat :=
  (List.range g.size).filter fun j => (g.streamingWidth j).isSome && ((g.reachOf k).node j).parity

/-- What is composed on an output is the XOR of the corrections of its contributors. -/
theorem segment_compose (hk : k < g.sinkWires.length)
    (hwidth : ∀ j k', k' < g.sinkWires.length → (g.streamingWidth j).isSome →
      ((g.reachOf k').node j).parity = true → (bits j).length = g.width k') :
    g.segment (g.compose bits) k = xorAll (zeros (g.width k)) ((g.contributors k).map bits) := by
  -- over the nodes, each streaming one of odd parity adds its bits to the output
  have hrun : ∀ (js : List Nat) (values : List UInt8),
      g.outputOffset g.sinkWires.length ≤ values.length →
      g.segment (js.foldl (fun values j =>
        if (g.streamingWidth j).isSome then
          (g.outputOffsets j).foldl (fun values offset => xorAt values offset (bits j)) values
        else values) values) k =
      xorAll (g.segment values k) ((js.filter fun j =>
        (g.streamingWidth j).isSome && ((g.reachOf k).node j).parity).map bits) := by
    intro js
    induction js with
    | nil => exact fun values _ => rfl
    | cons j js ih =>
      intro values hlength
      rw [List.foldl_cons]
      by_cases hstreams : (g.streamingWidth j).isSome = true
      · rw [if_pos hstreams, ih _ (by rwa [length_xorAts])]
        unfold outputOffsets
        rw [segment_xorAts _ (List.nodup_range.filter _)]
        · by_cases hparity : ((g.reachOf k).node j).parity = true
          · rw [if_pos (List.mem_filter.mpr ⟨List.mem_range.mpr hk, hparity⟩),
              List.filter_cons_of_pos (by rw [hstreams, hparity]; rfl)]
            rfl
          · have hno : k ∉ (List.range g.sinkWires.length).filter
                fun k => ((g.reachOf k).node j).parity := by
              intro hmem
              exact hparity (List.mem_filter.mp hmem).2
            rw [if_neg hno, List.filter_cons_of_neg (by simp [hparity])]
        · intro k' hk'
          obtain ⟨hk', hparity⟩ := List.mem_filter.mp hk'
          exact hwidth j k' (List.mem_range.mp hk') hstreams hparity
        · intro k' hk'
          have := outputOffset_le (g := g) (List.mem_range.mp (List.mem_filter.mp hk').1)
          omega
      · rw [if_neg hstreams, ih _ hlength, List.filter_cons_of_neg (by simp [hstreams])]
  have hzeros : g.segment (zeros (g.outputOffset g.sinkWires.length)) k = zeros (g.width k) := by
    have := outputOffset_le (g := g) hk
    unfold segment zeros
    rw [List.drop_replicate, List.take_replicate]
    congr 1
    omega
  unfold compose contributors
  rw [hrun _ _ (by rw [length_zeros]), hzeros]

/-! ## What is composed and what the graph gives -/

/-- The node neither streams nor is an `xor_node`. -/
def isOneShot (g : TaskGraph) (j : Nat) : Bool :=
  match g.nodes[j]? with
  | some (.oneShot _) => true
  | _ => false

theorem isOneShot_iff :
    g.isOneShot j = true ↔ j < g.size ∧ g.streamingWidth j = none ∧ g.isXor j = false := by
  unfold isOneShot streamingWidth isXor
  cases hnode : g.nodes[j]? with
  | none =>
    have hle := List.getElem?_eq_none_iff.mp hnode
    have hnot : ¬ j < g.size := Nat.not_lt.mpr hle
    simp [hnot]
  | some node =>
    have hlt : j < g.size := (List.getElem?_eq_some_iff.mp hnode).1
    cases node <;> simp [hlt]

/-! ## Widths -/

/-- Corrections of the streaming nodes, and values of the other nodes that the output can take. -/
structure Assigned (g : TaskGraph) (k : Nat) (bits : Nat → List UInt8) (other : Port → List UInt8) :
    Prop where
  bits : ∀ j width, g.streamingWidth j = some width → (bits j).length = width
  other : ∀ q, g.isOneShot q.node = true → ((g.reachOf k).output q).reachable = true →
    (other q).length = g.width k

theorem parity_iff (c : Nat) : (ofCount c).parity = true ↔ c % 2 = 1 := decide_eq_true_iff

theorem reachable_iff (c : Nat) : (ofCount c).reachable = true ↔ 0 < c := decide_eq_true_iff

theorem reachable_of_parity {c : Nat} (h : (ofCount c).parity = true) :
    (ofCount c).reachable = true := by
  rw [parity_iff] at h
  rw [reachable_iff]
  omega

theorem isXor_of_streams (h : (g.streamingWidth j).isSome) : g.isXor j = false := by
  by_contra hxor
  rw [streamingWidth_of_isXor (Bool.of_not_eq_false hxor)] at h
  cases h

/-- The streaming nodes that reach an output have its width. -/
theorem width_eq (hfree : g.streamingConflictFree = true) (hk : k < g.sinkWires.length) {width : Nat}
    (hstreams : g.streamingWidth j = some width) (hreach : ((g.reachOf k).node j).reachable = true) :
    g.width k = width := by
  have hj : j < g.size := by
    by_contra hj
    have hnone : g.nodes[j]? = none := List.getElem?_eq_none (Nat.not_lt.mp hj)
    simp [streamingWidth, hnone] at hstreams
  have hmem : width ∈ g.feeders k := by
    apply List.mem_filterMap.mpr
    exact ⟨j, List.mem_range.mpr hj, by rw [if_pos hreach, hstreams]⟩
  have hsome := List.all_eq_true.mp (Bool.and_eq_true_iff.mp hfree).2 k (List.mem_range.mpr hk)
  unfold TaskGraph.width
  unfold outputWidth at hsome ⊢
  cases hfeeders : g.feeders k with
  | nil =>
    rw [hfeeders] at hmem
    cases hmem
  | cons first rest =>
    rw [hfeeders] at hmem hsome
    dsimp only at hsome ⊢
    split at hsome
    · rename_i hall
      rw [if_pos hall, Option.getD_some]
      rcases List.mem_cons.mp hmem with rfl | hmem
      · rfl
      · exact (of_decide_eq_true (List.all_eq_true.mp hall width hmem)).symm
    · cases hsome

/-! ## The ends by their kind -/

def streamingEnds (g : TaskGraph) (p : Port) : List Port :=
  (g.ends p).filter fun q => (g.streamingWidth q.node).isSome

def oneShotEnds (g : TaskGraph) (p : Port) : List Port :=
  (g.ends p).filter fun q => !(g.streamingWidth q.node).isSome

def oddOneShots (g : TaskGraph) (p : Port) : List Port :=
  (g.oneShotEnds p).dedup.filter fun q => decide ((g.oneShotEnds p).count q % 2 = 1)

theorem mem_oddOneShots (ht : Tracks g 0 (g.reachOf k) (g.ends p)) :
    q ∈ g.oddOneShots p ↔ g.isOneShot q.node = true ∧ ((g.reachOf k).output q).parity = true := by
  unfold oddOneShots oneShotEnds
  rw [List.mem_filter, List.mem_dedup, List.mem_filter, decide_eq_true_eq]
  constructor
  · rintro ⟨⟨hq, hnot⟩, hodd⟩
    rw [List.count_filter (p := fun q : Port => !(g.streamingWidth q.node).isSome) hnot] at hodd
    have hxor := ht.ends q hq (Nat.zero_le _)
    constructor
    · exact isOneShot_iff.mpr ⟨node_lt (ht.carries q hq), by simpa using hnot, hxor⟩
    · rw [ht.count q (.inr hxor), parity_iff]
      exact hodd
  · rintro ⟨hshot, hparity⟩
    obtain ⟨-, hnone, hxor⟩ := isOneShot_iff.mp hshot
    have hnot : (!(g.streamingWidth q.node).isSome) = true := by simp [hnone]
    rw [ht.count q (.inr hxor), parity_iff] at hparity
    refine ⟨⟨List.count_pos_iff.mp (by omega), hnot⟩, ?_⟩
    rw [List.count_filter (p := fun q : Port => !(g.streamingWidth q.node).isSome) hnot]
    exact hparity

/-- A streaming node is reached as often as the ends at streaming nodes say. -/
theorem count_streamingEnds (j : Nat) : ((g.streamingEnds p).map Port.node).count j =
    if (g.streamingWidth j).isSome then ((g.ends p).map Port.node).count j else 0 := by
  unfold List.count streamingEnds
  rw [List.countP_map, List.countP_map, List.countP_filter]
  split
  · rename_i hstreams
    apply List.countP_congr
    intro q _
    simp only [Function.comp_apply, Bool.and_eq_true, beq_iff_eq, and_iff_left_iff_imp]
    rintro rfl
    exact hstreams
  · rename_i hnot
    apply List.countP_eq_zero.mpr
    intro q _
    simp only [Function.comp_apply, Bool.and_eq_true, beq_iff_eq, not_and]
    rintro rfl
    exact hnot

theorem contributors_eq (ht : Tracks g 0 (g.reachOf k) (g.ends p)) :
    ((List.range g.size).filter fun j =>
      decide (((g.streamingEnds p).map Port.node).count j % 2 = 1)) = g.contributors k := by
  apply List.filter_congr
  intro j _
  rw [count_streamingEnds]
  cases hstreams : (g.streamingWidth j).isSome with
  | false => rfl
  | true =>
    rw [if_pos rfl, ht.node j (Nat.zero_le _) (isXor_of_streams hstreams), Bool.true_and]
    rfl

/-- The ends of the paths have values of the width of the output. -/
theorem good_ends (hfree : g.streamingConflictFree = true) (hk : k < g.sinkWires.length)
    (ht : Tracks g 0 (g.reachOf k) (g.ends p)) (ha : Assigned g k bits other) (hq : q ∈ g.ends p) :
    Good g bits other (g.width k) q := by
  have hxor := ht.ends q hq (Nat.zero_le _)
  have heval : g.evaluate bits other g.size q = _ := evaluate_ends (ht.carries q hq) hxor
  have hv := value_of_ok heval
  refine ⟨by rw [heval, hv], ?_⟩
  rw [hv]
  cases hstreams : g.streamingWidth q.node with
  | some width =>
    have hpos : 0 < ((g.ends p).map Port.node).count q.node :=
      List.count_pos_iff.mpr (List.mem_map_of_mem hq)
    have hreach : ((g.reachOf k).node q.node).reachable = true := by
      rw [ht.node _ (Nat.zero_le _) hxor]
      exact (reachable_iff _).mpr hpos
    rw [width_eq hfree hk hstreams hreach]
    exact ha.bits _ _ hstreams
  | none =>
    apply ha.other q
    · exact isOneShot_iff.mpr ⟨node_lt (ht.carries q hq), hstreams, hxor⟩
    · rw [ht.count q (.inr hxor)]
      exact (reachable_iff _).mpr (List.count_pos_iff.mpr hq)

/-! ## Against the evaluation -/

theorem segment_eq (hc : g.Compiled) (hfree : g.streamingConflictFree = true)
    (hk : k < g.sinkWires.length) (ha : Assigned g k bits other) :
    g.segment (g.compose bits) k = xorAll (zeros (g.width k)) ((g.contributors k).map bits) := by
  apply segment_compose hk
  intro j k' hk' hstreams hparity
  obtain ⟨width, hwidth⟩ := Option.isSome_iff_exists.mp hstreams
  have ht := tracks_reachOf hc hfree (List.getElem?_eq_getElem hk')
  have hnode := ht.node j (Nat.zero_le _) (isXor_of_streams hstreams)
  have hreach : ((g.reachOf k').node j).reachable = true := by
    rw [hnode] at hparity ⊢
    exact reachable_of_parity hparity
  rw [ha.bits j width hwidth, width_eq hfree hk' hwidth hreach]

/-- The value of an output is what is composed on it, XOR the values of the one-shot nodes that reach it
along an odd number of paths. -/
theorem evaluate_output (hc : g.Compiled) (hfree : g.streamingConflictFree = true)
    (hp : g.sinkWires[k]? = some p) (ha : Assigned g k bits other) :
    g.evaluate bits other g.size p =
      .ok (xorAll (g.segment (g.compose bits) k) ((g.oddOneShots p).map other)) := by
  have hk : k < g.sinkWires.length := (List.getElem?_eq_some_iff.mp hp).1
  have ht := tracks_reachOf hc hfree hp
  have hvalue : ∀ q ∈ g.ends p, g.value bits other q =
      if (g.streamingWidth q.node).isSome then bits q.node else other q :=
    fun q hq => value_of_ok (evaluate_ends (ht.carries q hq) (ht.ends q hq (Nat.zero_le _)))
  have hstreaming : (g.streamingEnds p).map (g.value bits other) =
      ((g.streamingEnds p).map Port.node).map bits := by
    rw [List.map_map]
    apply List.map_congr_left
    intro q hq
    obtain ⟨hq, hstreams⟩ := List.mem_filter.mp hq
    rw [hvalue q hq, if_pos hstreams]
    rfl
  have hshots : (g.oneShotEnds p).map (g.value bits other) = (g.oneShotEnds p).map other := by
    apply List.map_congr_left
    intro q hq
    obtain ⟨hq, hnot⟩ := List.mem_filter.mp hq
    rw [hvalue q hq, if_neg (by simpa using hnot)]
  have hnodes : ∀ j ∈ (g.streamingEnds p).map Port.node, j ∈ List.range g.size := by
    intro j hj
    obtain ⟨q, hq, rfl⟩ := List.mem_map.mp hj
    exact List.mem_range.mpr (node_lt (ht.carries q (List.mem_filter.mp hq).1))
  -- the ends at streaming nodes first
  have hperm : (g.streamingEnds p ++ g.oneShotEnds p).Perm (g.ends p) := List.filter_append_perm ..
  rw [evaluate_eq_ends hc (hc.sinks p (List.mem_of_getElem? hp)) fun q hq => good_ends hfree hk ht ha hq,
    ← xorAll_perm _ (hperm.map _), List.map_append, xorAll_append, hstreaming, hshots,
    xorAll_odd bits _ List.nodup_range hnodes, contributors_eq ht, ← segment_eq hc hfree hk ha,
    xorAll_odd other _ (List.nodup_dedup _) fun q hq => List.mem_dedup.mpr hq]
  rfl

/-- Whatever corrections the streaming nodes commit, the values composed on an output are those that the
graph gives exactly when the output has no bits or no node that neither streams nor is an `xor_node`
reaches it along an odd number of paths. -/
theorem folds_iff (hc : g.Compiled) (hfree : g.streamingConflictFree = true)
    (hp : g.sinkWires[k]? = some p) :
    (∀ bits other, Assigned g k bits other →
      g.evaluate bits other g.size p = .ok (g.segment (g.compose bits) k)) ↔
    g.width k = 0 ∨ ∀ q, g.isOneShot q.node = true → ((g.reachOf k).output q).parity = false := by
  have hk : k < g.sinkWires.length := (List.getElem?_eq_some_iff.mp hp).1
  have ht := tracks_reachOf hc hfree hp
  have hlength : ∀ bits other, Assigned g k bits other →
      (g.segment (g.compose bits) k).length = g.width k := by
    intro bits other ha
    rw [segment_eq hc hfree hk ha, length_xorAll, length_zeros]
  constructor
  · intro hfolds
    by_contra hno
    obtain ⟨hwidth, hodd⟩ := not_or.mp hno
    obtain ⟨q₀, hq₀⟩ := not_forall.mp hodd
    obtain ⟨hshot, hparity⟩ := Classical.not_imp.mp hq₀
    have hmem : q₀ ∈ g.oddOneShots p :=
      (mem_oddOneShots ht).mpr ⟨hshot, Bool.of_not_eq_false hparity⟩
    -- all values are zeros but that of `q₀`
    let bits : Nat → List UInt8 := fun j => zeros ((g.streamingWidth j).getD 0)
    let other : Port → List UInt8 := fun q =>
      if q = q₀ then List.replicate (g.width k) 1 else zeros (g.width k)
    have ha : Assigned g k bits other := by
      constructor
      · intro j width hstreams
        change (zeros ((g.streamingWidth j).getD 0)).length = width
        rw [length_zeros, hstreams, Option.getD_some]
      · intro q _ _
        by_cases hq : q = q₀
        · simp [other, hq]
        · simp [other, hq]
    have heq := hfolds bits other ha
    rw [evaluate_output hc hfree hp ha] at heq
    have hseg := Except.ok.inj heq
    have hnodup : (g.oddOneShots p).Nodup := (List.nodup_dedup _).filter _
    have hrest : ∀ v ∈ ((g.oddOneShots p).erase q₀).map other,
        v = zeros (xorInto (g.segment (g.compose bits) k) (other q₀)).length := by
      intro v hv
      obtain ⟨q, hq, rfl⟩ := List.mem_map.mp hv
      have hne : q ≠ q₀ := (hnodup.mem_erase_iff.mp hq).1
      rw [length_xorInto, hlength bits other ha]
      exact if_neg hne
    rw [xorAll_perm _ ((List.perm_cons_erase hmem).map other), List.map_cons] at hseg
    change xorAll (xorInto _ (other q₀)) _ = _ at hseg
    rw [xorAll_zeros hrest] at hseg
    have hones : other q₀ = List.replicate (g.width k) 1 := if_pos rfl
    rw [xorInto_eq_self (by rw [hones, hlength bits other ha, List.length_replicate]), hones,
      hlength bits other ha] at hseg
    obtain ⟨w, hw⟩ := Nat.exists_eq_succ_of_ne_zero hwidth
    rw [hw] at hseg
    exact absurd (List.cons.inj hseg).1 (by decide)
  · intro hcond bits other ha
    rw [evaluate_output hc hfree hp ha]
    congr 1
    rcases hcond with hwidth | heven
    · have hnil : g.segment (g.compose bits) k = [] :=
        List.eq_nil_of_length_eq_zero ((hlength bits other ha).trans hwidth)
      rw [hnil]
      apply List.eq_nil_of_length_eq_zero
      rw [length_xorAll]
      rfl
    · have hnone : g.oddOneShots p = [] := by
        apply List.eq_nil_iff_forall_not_mem.mpr
        intro q hq
        obtain ⟨hshot, hparity⟩ := (mem_oddOneShots ht).mp hq
        rw [heven q hshot] at hparity
        cases hparity
      rw [hnone]
      rfl

end TaskGraph

/-! ## Two graphs -/

namespace ParityExample

open TaskGraph

/-- Two streaming nodes of one observable; their XOR, and that XORed with the first one again. -/
def twice : TaskGraph where
  nodes := [.streaming 1 [true], .streaming 1 [true], .xor 2, .xor 2]
  wiresTo := fun j =>
    if j = 2 then [⟨some ⟨0, 0⟩, 0⟩, ⟨some ⟨1, 0⟩, 1⟩]
    else if j = 3 then [⟨some ⟨2, 0⟩, 0⟩, ⟨some ⟨0, 0⟩, 1⟩]
    else []
  sinkWires := [⟨3, 0⟩]

theorem twice_compiled : twice.Compiled := by
  constructor
  · decide
  · intro j w hw p hp _
    rcases j with _ | _ | _ | _ | j
    · cases hw
    · cases hw
    · rcases List.mem_cons.mp hw with rfl | hw
      · cases hp
        decide
      · cases List.mem_singleton.mp hw
        cases hp
        decide
    · rcases List.mem_cons.mp hw with rfl | hw
      · cases hp
        decide
      · cases List.mem_singleton.mp hw
        cases hp
        decide
    · cases hw
  · intro j n hnode
    rcases j with _ | _ | _ | _ | j
    · cases hnode
    · cases hnode
    · cases hnode
      exact ⟨by decide, List.Perm.refl _, by decide⟩
    · cases hnode
      exact ⟨by decide, List.Perm.refl _, by decide⟩
    · cases hnode

def committed (j : Nat) : List UInt8 := if j = 0 then [1] else if j = 1 then [0] else []

theorem committed_assigned : Assigned twice 0 committed fun _ => [] := by
  constructor
  · intro j width hstreams
    rcases j with _ | _ | _ | _ | j
    · cases hstreams
      rfl
    · cases hstreams
      rfl
    · cases hstreams
    · cases hstreams
    · cases hstreams
  · rintro ⟨j, slot⟩ hshot
    rcases j with _ | _ | _ | _ | j <;> cases hshot

/-- The first node cancels, and the second one's corrections are the output. -/
theorem folds_twice : twice.evaluate committed (fun _ => []) 4 ⟨3, 0⟩ = .ok [0] ∧
    twice.evaluate committed (fun _ => []) 4 ⟨3, 0⟩ =
      .ok (twice.segment (twice.compose committed) 0) := by
  have hno : ∀ q, twice.isOneShot q.node = true → ((twice.reachOf 0).output q).parity = false := by
    rintro ⟨j, slot⟩ hshot
    rcases j with _ | _ | _ | _ | j <;> cases hshot
  exact ⟨by decide, (folds_iff twice_compiled (by decide) rfl).mpr (.inr hno) _ _ committed_assigned⟩

def mixed : TaskGraph where
  nodes := [.streaming 1 [true], .oneShot [true], .xor 2]
  wiresTo := fun j => if j = 2 then [⟨some ⟨0, 0⟩, 0⟩, ⟨some ⟨1, 0⟩, 1⟩] else []
  sinkWires := [⟨2, 0⟩]

theorem mixed_compiled : mixed.Compiled := by
  constructor
  · decide
  · intro j w hw p hp _
    rcases j with _ | _ | _ | j
    · cases hw
    · cases hw
    · rcases List.mem_cons.mp hw with rfl | hw
      · cases hp
        decide
      · cases List.mem_singleton.mp hw
        cases hp
        decide
    · cases hw
  · intro j n hnode
    rcases j with _ | _ | _ | j
    · cases hnode
    · cases hnode
    · cases hnode
      exact ⟨by decide, List.Perm.refl _, by decide⟩
    · cases hnode

/-- It compiles without a conflict, and what the one-shot node gives is left out. -/
theorem not_folds_mixed : mixed.Compiled ∧ mixed.streamingConflictFree = true ∧
    Assigned mixed 0 (fun _ => [0]) (fun _ => [1]) ∧
    mixed.evaluate (fun _ => [0]) (fun _ => [1]) 3 ⟨2, 0⟩ = .ok [1] ∧
    mixed.segment (mixed.compose fun _ => [0]) 0 = [0] := by
  have hassigned : Assigned mixed 0 (fun _ => [0]) (fun _ => [1]) := by
    constructor
    · intro j width hstreams
      rcases j with _ | _ | _ | j
      · cases hstreams
        rfl
      · cases hstreams
      · cases hstreams
      · cases hstreams
    · intro q _ _
      decide
  exact ⟨mixed_compiled, by decide, hassigned, by decide, by decide⟩

end ParityExample

end CudaqQec.PathParity
