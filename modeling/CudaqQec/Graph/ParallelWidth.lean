import CudaqQec.Lib.Width
import Mathlib.Data.Finset.Range
import Mathlib.Logic.Relation
import Mathlib.Order.Bounds.Basic

/-!
# How many nodes of a graph run at once

`maximum_parallel_width` closes the dependents of each node in one sweep from the last node to the
first, and then matches nodes to nodes they reach, one augmenting path after another. Nodes that are
left without a match are as many as the largest set of nodes of which none reaches another.

* `reachability_iff`: the sweep computes what each node reaches.
* `augment_sound`: an augmenting search finds a larger matching, or marks a closed set.
* `maximumParallelWidth_correct`: the result is the width of the graph.
-/

namespace CudaqQec

open Relation Width

/-! ## What a node reaches -/

abbrev ReachTable := Nat → Nat → Bool

def reachThrough (node : Nat) (reachable : ReachTable) (dependent : Nat) : ReachTable :=
  Function.update reachable node fun d =>
    reachable node d || decide (d = dependent) || reachable dependent d

@[grind =] def sweep (dependents : List (List Nat)) : Nat → ReachTable → ReachTable
  | 0, reachable => reachable
  | node + 1, reachable =>
    sweep dependents node ((dependents.getD node []).foldl (reachThrough node) reachable)

def reachability (dependents : List (List Nat)) : ReachTable :=
  sweep dependents dependents.length fun _ _ => false

def DependsOn (dependents : List (List Nat)) (a b : Nat) : Prop := b ∈ dependents.getD a []

/-- Nodes in topological order: what depends on a node comes after it. -/
def Topological (dependents : List (List Nat)) : Prop :=
  ∀ a b, DependsOn dependents a b → a < b ∧ b < dependents.length

def Reaches (dependents : List (List Nat)) : Nat → Nat → Prop := TransGen (DependsOn dependents)

section
variable {dependents : List (List Nat)} {node a b : Nat}

/-! ## The table of reachable nodes -/

/-- One row is computed from the rows of the dependents, which come after it. -/
theorem foldl_reachThrough {deps : List Nat} (hdeps : ∀ d ∈ deps, node < d) (reachable : ReachTable) :
    deps.foldl (reachThrough node) reachable a b = true ↔
      reachable a b = true ∨ a = node ∧ ∃ d ∈ deps, b = d ∨ reachable d b = true := by
  induction deps generalizing reachable with
  | nil => simp
  | cons d deps ih =>
    have hrows : ∀ d', node < d' → reachThrough node reachable d d' = reachable d' := fun d' hd' =>
      Function.update_of_ne (by omega) _ _
    have hdeps' : ∀ d' ∈ deps, node < d' := fun d' hd' => hdeps d' (List.mem_cons_of_mem _ hd')
    have hrest : (∃ d' ∈ deps, b = d' ∨ reachThrough node reachable d d' b = true) ↔
        ∃ d' ∈ deps, b = d' ∨ reachable d' b = true := by
      apply exists_congr
      intro d'
      apply and_congr_right
      intro hd'
      rw [hrows d' (hdeps' d' hd')]
    rw [List.foldl_cons, ih hdeps', hrest]
    by_cases ha : a = node
    · subst ha
      simp only [reachThrough, Function.update_self, List.exists_mem_cons_iff, true_and,
        Bool.or_eq_true, decide_eq_true_eq, or_assoc]
    · have hrow : reachThrough node reachable d a = reachable a := Function.update_of_ne ha _ _
      simp [hrow, ha]

theorem reaches_iff :
    Reaches dependents a b ↔
      ∃ d ∈ dependents.getD a [], b = d ∨ Reaches dependents d b := by
  unfold Reaches
  rw [TransGen.head'_iff]
  apply exists_congr
  intro d
  rw [reflTransGen_iff_eq_or_transGen]
  exact Iff.rfl

theorem Reaches.lt (h : Topological dependents) (hab : Reaches dependents a b) :
    a < b ∧ b < dependents.length := by
  induction hab with
  | single hab => exact h _ _ hab
  | tail _ hbc ih =>
    have := h _ _ hbc
    omega

/-- Each node of the sweep finds the rows of the nodes after it complete. -/
theorem sweep_iff (h : Topological dependents) (k : Nat) {reachable : ReachTable}
    (hdone : ∀ a b, reachable a b = true ↔ k ≤ a ∧ Reaches dependents a b) :
    sweep dependents k reachable a b = true ↔ Reaches dependents a b := by
  induction k generalizing reachable with
  | zero => simp [sweep, hdone]
  | succ k ih =>
    apply ih
    intro a b
    rw [foldl_reachThrough fun d hd => (h k d hd).1, hdone]
    constructor
    · rintro (⟨hle, hab⟩ | ⟨rfl, d, hd, hdb⟩)
      · exact ⟨by omega, hab⟩
      · refine ⟨le_refl _, reaches_iff.mpr ⟨d, hd, hdb.imp_right fun hdb => ?_⟩⟩
        exact ((hdone d b).mp hdb).2
    · rintro ⟨hle, hab⟩
      rcases Nat.lt_or_ge k a with hlt | hge
      · exact .inl ⟨hlt, hab⟩
      · obtain rfl : a = k := by omega
        obtain ⟨d, hd, hdb⟩ := reaches_iff.mp hab
        refine .inr ⟨rfl, d, hd, hdb.imp_right fun hdb => ?_⟩
        exact (hdone d b).mpr ⟨(h a d hd).1, hdb⟩

theorem reachability_iff (h : Topological dependents) :
    reachability dependents a b = true ↔ Reaches dependents a b := by
  apply sweep_iff h
  intro a b
  refine ⟨by simp, fun ⟨hle, hab⟩ => ?_⟩
  have := hab.lt h
  omega

end

/-! ## Augmenting paths -/

/-- The state of one augmenting search: the nodes marked in `visited`, and `matched_left`, without a
value where the source has -1. Its `int` holds the number of every node whose row there is memory for. -/
structure Augmenting where
  visited : List Nat
  matchedLeft : Nat → Option Nat

/-- `augment`'s loop over the nodes `left` may be matched with; `augment` searches a new match for the
node a match is taken from. -/
@[grind =] def augmentOver (reachable : ReachTable) (augment : Nat → Augmenting → Option (Bool × Augmenting))
    (left : Nat) : List Nat → Augmenting → Option (Bool × Augmenting)
  | [], s => some (false, s)
  | right :: rights, s =>
    if reachable left right = false ∨ right ∈ s.visited then
      augmentOver reachable augment left rights s
    else
      let s := { s with visited := right :: s.visited }
      match s.matchedLeft right with
      | none => some (true, { s with matchedLeft := Function.update s.matchedLeft right (some left) })
      | some owner =>
        match augment owner s with
        | some (true, s') =>
          some (true, { s' with matchedLeft := Function.update s'.matchedLeft right (some left) })
        | some (false, s') => augmentOver reachable augment left rights s'
        | none => none

@[grind =] def augment (reachable : ReachTable) (nodeCount : Nat) :
    Nat → Nat → Augmenting → Option (Bool × Augmenting)
  | 0, _, _ => none
  | fuel + 1, left, s =>
    augmentOver reachable (augment reachable nodeCount fuel) left (List.range nodeCount) s

/-- The loop of `maximum_parallel_width` over the nodes that are left. -/
@[grind =] def matchNodes (reachable : ReachTable) (nodeCount : Nat) :
    List Nat → (Nat → Option Nat) → Nat → Option Nat
  | [], _, matchingSize => some matchingSize
  | node :: nodes, matchedLeft, matchingSize =>
    match augment reachable nodeCount (nodeCount + 1) node ⟨[], matchedLeft⟩ with
    | none => none
    | some (found, s) =>
      matchNodes reachable nodeCount nodes s.matchedLeft
        (if found then matchingSize + 1 else matchingSize)

/-- `maximum_parallel_width`. No search is deeper than there are nodes. -/
def maximumParallelWidth (dependents : List (List Nat)) : Option Nat :=
  (matchNodes (reachability dependents) dependents.length (List.range dependents.length)
    (fun _ => none) 0).map (dependents.length - ·)

section
variable {reachable : ReachTable} {nodeCount : Nat}

/-! ## What a search may leave -/

def Leads (reachable : ReachTable) (a b : Nat) : Prop := reachable a b = true

/-- `left` may be matched anew with what is not in `V`: no two nodes there have one owner, and `left`
owns none of them. -/
structure Spare (left : Nat) (V : List Nat) (owner : Nat → Option Nat) : Prop where
  injective : ∀ {x y y'}, y ∉ V → y' ∉ V → owner y = some x → owner y' = some x → y = y'
  free : ∀ y, y ∉ V → owner y ≠ some left

/-- What a search that succeeds does: along a path through nodes not in `V`, each is owned anew, and
one more is owned than before. -/
structure Augmented (reachable : ReachTable) (nodeCount left : Nat) (V : List Nat)
    (owner owner' : Nat → Option Nat) : Prop where
  kept : ∀ y ∈ V, owner' y = owner y
  one : ∃ y < nodeCount, owner y = none ∧ ∀ y', owner' y' = none ↔ owner y' = none ∧ y' ≠ y
  below : ∀ {x y}, owner' y = some x → owner y = some x ∨ Leads reachable x y ∧ y < nodeCount
  owners : ∀ {x y}, y ∉ V → owner' y = some x → x = left ∨ ∃ y' ∉ V, owner y' = some x
  injective : ∀ {x y y'}, y ∉ V → y' ∉ V → owner' y = some x → owner' y' = some x → y = y'
  closed : ∀ Z, Closed (Leads reachable) owner Z →
    (¬ ∀ y, Leads reachable left y → y ∈ Z) ∧ ∀ z ∈ Z, owner' z = owner z

/-- What a search that fails does: it marks what `left` leads to among `rights`, and all of what it
marks is owned by nodes that lead to marked ones only. -/
structure Failed (reachable : ReachTable) (left : Nat) (rights V V' : List Nat)
    (owner owner' : Nat → Option Nat) : Prop where
  same : owner' = owner
  grown : V <:+ V'
  leads : ∀ y ∈ rights, Leads reachable left y → y ∈ V'
  closed : ∀ y ∈ V', y ∉ V → ∃ x, owner y = some x ∧ ∀ z, Leads reachable x z → z ∈ V'

/-- Marks are nodes, each marked once. -/
structure Marks (nodeCount : Nat) (V : List Nat) : Prop where
  nodup : V.Nodup
  lt : ∀ y ∈ V, y < nodeCount

theorem Marks.length_le {V : List Nat} (h : Marks nodeCount V) : V.length ≤ nodeCount := by
  have hsub : V ⊆ List.range nodeCount := fun y hy => List.mem_range.mpr (h.lt y hy)
  simpa using (List.subperm_of_subset h.nodup hsub).length_le

inductive Augmenting.Outcome (reachable : ReachTable) (nodeCount left : Nat) (rights : List Nat)
    (s : Augmenting) : Option (Bool × Augmenting) → Prop
  | found {s' : Augmenting}
      (augmented : Augmented reachable nodeCount left s.visited s.matchedLeft s'.matchedLeft) :
      Outcome reachable nodeCount left rights s (some (true, s'))
  | failed {s' : Augmenting} (marks : Marks nodeCount s'.visited)
      (failed : Failed reachable left rights s.visited s'.visited s.matchedLeft s'.matchedLeft) :
      Outcome reachable nodeCount left rights s (some (false, s'))

/-- What a search comes to where `fuel` more nodes can be marked. -/
def AugmentSound (reachable : ReachTable) (nodeCount fuel : Nat)
    (augment : Nat → Augmenting → Option (Bool × Augmenting)) : Prop :=
  ∀ (s : Augmenting) (left : Nat), Marks nodeCount s.visited → Spare left s.visited s.matchedLeft →
    nodeCount < s.visited.length + fuel →
    s.Outcome reachable nodeCount left (List.range nodeCount) (augment left s)

section
variable {left right w : Nat} {V V' : List Nat} {owner owner' : Nat → Option Nat}

/-! ## Adding an edge to a search -/

theorem Spare.mono (h : Spare left V owner) (hV : ∀ y ∈ V, y ∈ V') : Spare left V' owner where
  injective hy hy' := h.injective (fun hV' => hy (hV _ hV')) (fun hV' => hy' (hV _ hV'))
  free y hy := h.free y fun hV' => hy (hV y hV')

/-- The owner of a node is spare once the node is marked. -/
theorem Spare.owner_of_marked (h : Spare left V owner) (hright : right ∉ V)
    (hw : owner right = some w) : Spare w (right :: V) owner where
  injective hy hy' := h.injective (fun hV => hy (List.mem_cons_of_mem _ hV))
    (fun hV => hy' (List.mem_cons_of_mem _ hV))
  free y hy howns := by
    obtain rfl := h.injective (fun hV => hy (List.mem_cons_of_mem _ hV)) hright howns hw
    exact hy List.mem_cons_self

/-- A node without an owner is matched at once. -/
theorem Augmented.unmatched (h : Spare left V owner) (hright : right ∉ V) (hlt : right < nodeCount)
    (hleads : Leads reachable left right) (hnone : owner right = none) :
    Augmented reachable nodeCount left V owner (Function.update owner right (some left)) where
  kept y hy := Function.update_of_ne (ne_of_mem_of_not_mem hy hright) _ _
  one := by
    refine ⟨right, hlt, hnone, fun y => ?_⟩
    by_cases hy : y = right
    · simp [hy]
    · simp [hy]
  below {x y} hx := by
    by_cases hy : y = right
    · subst hy
      obtain rfl : left = x := by simpa using hx
      exact .inr ⟨hleads, hlt⟩
    · exact .inl (by rwa [Function.update_of_ne hy] at hx)
  owners {x y} hV hx := by
    by_cases hy : y = right
    · subst hy
      exact .inl (by simpa using hx.symm)
    · exact .inr ⟨y, hV, by rwa [Function.update_of_ne hy] at hx⟩
  injective {x y y'} hV hV' hx hx' := by
    by_cases hy : y = right <;> by_cases hy' : y' = right
    · rw [hy, hy']
    · rw [Function.update_of_ne hy'] at hx'
      obtain rfl : left = x := by simpa [hy] using hx
      exact absurd hx' (h.free y' hV')
    · rw [Function.update_of_ne hy] at hx
      obtain rfl : left = x := by simpa [hy'] using hx'
      exact absurd hx (h.free y hV)
    · rw [Function.update_of_ne hy] at hx
      rw [Function.update_of_ne hy'] at hx'
      exact h.injective hV hV' hx hx'
  closed Z hZ := by
    have hout : right ∉ Z := fun hmem => by
      obtain ⟨x, hx, -⟩ := hZ right hmem
      simp [hnone] at hx
    exact ⟨fun hall => hout (hall right hleads),
      fun z hz => Function.update_of_ne (ne_of_mem_of_not_mem hz hout) _ _⟩

/-- A node is taken from its owner, which is matched anew. -/
theorem Augmented.rematched (h : Spare left V owner) (hright : right ∉ V) (hlt : right < nodeCount)
    (hleads : Leads reachable left right) (hw : owner right = some w)
    (haug : Augmented reachable nodeCount w (right :: V) owner owner') :
    Augmented reachable nodeCount left V owner (Function.update owner' right (some left)) where
  kept y hy := by
    rw [Function.update_of_ne (ne_of_mem_of_not_mem hy hright)]
    exact haug.kept y (List.mem_cons_of_mem _ hy)
  one := by
    obtain ⟨y, hy, hnone, hiff⟩ := haug.one
    refine ⟨y, hy, hnone, fun y' => ?_⟩
    by_cases hy' : y' = right
    · subst hy'
      simp [hw]
    · rw [Function.update_of_ne hy', hiff]
  below {x y} hx := by
    by_cases hy : y = right
    · subst hy
      obtain rfl : left = x := by simpa using hx
      exact .inr ⟨hleads, hlt⟩
    · exact haug.below (by rwa [Function.update_of_ne hy] at hx)
  owners {x y} hV hx := by
    by_cases hy : y = right
    · subst hy
      exact .inl (by simpa using hx.symm)
    · rw [Function.update_of_ne hy] at hx
      rcases haug.owners (by simp [hy, hV]) hx with rfl | ⟨y', hy', hx'⟩
      · exact .inr ⟨right, hright, hw⟩
      · exact .inr ⟨y', fun hV' => hy' (List.mem_cons_of_mem _ hV'), hx'⟩
  injective {x y y'} hV hV' hx hx' := by
    -- `left` owns nothing else: neither before nor what its match was taken from.
    have hleft : ∀ {y}, y ≠ right → y ∉ V → owner' y ≠ some left := by
      intro y hy hyV hown
      rcases haug.owners (by simp [hy, hyV]) hown with rfl | ⟨y', hy', hx'⟩
      · exact h.free right hright hw
      · exact h.free y' (fun hV' => hy' (List.mem_cons_of_mem _ hV')) hx'
    by_cases hy : y = right <;> by_cases hy' : y' = right
    · rw [hy, hy']
    · rw [Function.update_of_ne hy'] at hx'
      obtain rfl : left = x := by simpa [hy] using hx
      exact absurd hx' (hleft hy' hV')
    · rw [Function.update_of_ne hy] at hx
      obtain rfl : left = x := by simpa [hy'] using hx'
      exact absurd hx (hleft hy hV)
    · rw [Function.update_of_ne hy] at hx
      rw [Function.update_of_ne hy'] at hx'
      exact haug.injective (by simp [hy, hV]) (by simp [hy', hV']) hx hx'
  closed Z hZ := by
    obtain ⟨hstuck, hkept⟩ := haug.closed Z hZ
    have hout : right ∉ Z := fun hmem => by
      -- Its owner would lead into the closed set only, and have found nothing.
      obtain ⟨x, hx, hinto⟩ := hZ right hmem
      obtain rfl : w = x := by simpa [hw] using hx
      exact hstuck hinto
    refine ⟨fun hall => hout (hall right hleads), fun z hz => ?_⟩
    rw [Function.update_of_ne (ne_of_mem_of_not_mem hz hout)]
    exact hkept z hz

/-- What is done along nodes that are not marked is done along nodes that were not marked earlier. -/
theorem Augmented.mono (haug : Augmented reachable nodeCount left V' owner owner')
    (h : Spare left V owner) (hV : ∀ y ∈ V, y ∈ V') :
    Augmented reachable nodeCount left V owner owner' where
  kept y hy := haug.kept y (hV y hy)
  one := haug.one
  below := haug.below
  owners {x y} hyV hx := by
    by_cases hy : y ∈ V'
    · exact .inr ⟨y, hyV, haug.kept y hy ▸ hx⟩
    · exact (haug.owners hy hx).imp_right fun ⟨y', hy', hx'⟩ => ⟨y', fun hmem => hy' (hV y' hmem), hx'⟩
  injective {x y y'} hyV hyV' hx hx' := by
    have hcross : ∀ {y y'}, y ∉ V → y ∈ V' → y' ∉ V' → owner' y = some x → owner' y' ≠ some x := by
      intro y y' hyV hy hy' hx hx'
      rw [haug.kept y hy] at hx
      rcases haug.owners hy' hx' with rfl | ⟨y'', hy'', hx''⟩
      · exact h.free y hyV hx
      · obtain rfl := h.injective hyV (fun hmem => hy'' (hV y'' hmem)) hx hx''
        exact hy'' hy
    by_cases hy : y ∈ V' <;> by_cases hy' : y' ∈ V'
    · exact h.injective hyV hyV' (haug.kept y hy ▸ hx) (haug.kept y' hy' ▸ hx')
    · exact absurd hx' (hcross hyV hy hy' hx)
    · exact absurd hx (hcross hyV' hy' hy hx')
    · exact haug.injective hy hy' hx hx'
  closed := haug.closed

end

/-! ## The searches are sound -/

/-- What a failing search comes to, together with the search of what is left to look at. -/
theorem Augmenting.Outcome.after {left w right : Nat} {rights : List Nat} {s s' : Augmenting}
    {out : Option (Bool × Augmenting)} (h : Spare left s.visited s.matchedLeft)
    (hw : s.matchedLeft right = some w)
    (hfail : Failed reachable w (List.range nodeCount) (right :: s.visited) s'.visited s.matchedLeft
      s'.matchedLeft) (hrange : ∀ x y, Leads reachable x y → y < nodeCount)
    (hrest : s'.Outcome reachable nodeCount left rights out) :
    s.Outcome reachable nodeCount left (right :: rights) out := by
  have hgrown : ∀ y ∈ right :: s.visited, y ∈ s'.visited := fun y hy => hfail.grown.subset hy
  cases hrest with
  | found augmented =>
    rw [hfail.same] at augmented
    exact .found (augmented.mono h fun y hy => hgrown y (List.mem_cons_of_mem _ hy))
  | @failed s'' marks failed =>
    have hlater : ∀ y ∈ s'.visited, y ∈ s''.visited := fun y hy => failed.grown.subset hy
    refine .failed marks ⟨failed.same.trans hfail.same, ?_, ?_, ?_⟩
    · exact (List.suffix_cons right s.visited).trans (hfail.grown.trans failed.grown)
    · intro y hy hleads
      rcases List.mem_cons.mp hy with rfl | hy
      · exact hlater y (hgrown y List.mem_cons_self)
      · exact failed.leads y hy hleads
    · intro y hy hyV
      by_cases hy' : y ∈ s'.visited
      · by_cases hyr : y = right
        · subst hyr
          exact ⟨w, hw, fun z hz => hlater z
            (hfail.leads z (List.mem_range.mpr (hrange w z hz)) hz)⟩
        · obtain ⟨x, hx, hinto⟩ := hfail.closed y hy' (by simp [hyr, hyV])
          exact ⟨x, hx, fun z hz => hlater z (hinto z hz)⟩
      · obtain ⟨x, hx, hinto⟩ := failed.closed y hy hy'
        exact ⟨x, hfail.same ▸ hx, hinto⟩

theorem augmentOver_sound (hrange : ∀ x y, Leads reachable x y → y < nodeCount) {fuel : Nat}
    {augment : Nat → Augmenting → Option (Bool × Augmenting)}
    (haugment : AugmentSound reachable nodeCount fuel augment) {left : Nat} {rights : List Nat}
    {s : Augmenting} (hmarks : Marks nodeCount s.visited)
    (hspare : Spare left s.visited s.matchedLeft)
    (hfuel : nodeCount ≤ s.visited.length + fuel) :
    s.Outcome reachable nodeCount left rights (augmentOver reachable augment left rights s) := by
  induction rights generalizing s with
  | nil =>
    exact .failed hmarks ⟨rfl, List.suffix_refl _, by simp, fun y hy hyV => absurd hy hyV⟩
  | cons right rights ih =>
    unfold augmentOver
    split
    · next hskip =>
      -- Nothing `left` leads to, or marked already.
      have hrest := ih hmarks hspare hfuel
      revert hrest
      generalize augmentOver reachable augment left rights s = out
      intro hrest
      cases hrest with
      | found augmented => exact .found augmented
      | failed marks failed =>
        refine .failed marks ⟨failed.same, failed.grown, fun y hy hleads => ?_, failed.closed⟩
        rcases List.mem_cons.mp hy with rfl | hy
        · rcases hskip with hno | hmarked
          · exact absurd hleads (by simp [Leads, hno])
          · exact failed.grown.subset hmarked
        · exact failed.leads y hy hleads
    · next hnew =>
      obtain ⟨hleads, hright⟩ : Leads reachable left right ∧ right ∉ s.visited := by
        simpa [Leads] using hnew
      have hlt := hrange left right hleads
      dsimp only
      split
      · next hnone => exact .found (.unmatched hspare hright hlt hleads hnone)
      · next w hw =>
        have hmarks' : Marks nodeCount (right :: s.visited) :=
          ⟨List.nodup_cons.mpr ⟨hright, hmarks.nodup⟩, by simpa using ⟨hlt, hmarks.lt⟩⟩
        have hsub := haugment ⟨right :: s.visited, s.matchedLeft⟩ w hmarks'
          (hspare.owner_of_marked hright hw) (by simp only [List.length_cons]; omega)
        revert hsub
        generalize augment w ⟨right :: s.visited, s.matchedLeft⟩ = out
        intro hsub
        cases hsub with
        | found augmented => exact .found (.rematched hspare hright hlt hleads hw augmented)
        | @failed s' marks failed =>
          have hgrown : ∀ y ∈ s.visited, y ∈ s'.visited := fun y hy =>
            failed.grown.subset (List.mem_cons_of_mem _ hy)
          have hlen := failed.grown.length_le
          rw [List.length_cons] at hlen
          refine .after hspare hw failed hrange (ih marks ?_ (by omega))
          rw [failed.same]
          exact hspare.mono hgrown

theorem augment_sound (hrange : ∀ x y, Leads reachable x y → y < nodeCount) (fuel : Nat) :
    AugmentSound reachable nodeCount fuel (augment reachable nodeCount fuel) := by
  induction fuel with
  | zero =>
    intro s left hmarks _ hfuel
    have := hmarks.length_le
    omega
  | succ fuel ih =>
    intro s left hmarks hspare hfuel
    exact augmentOver_sound hrange ih hmarks hspare (by omega)

/-! ## One node after another -/

/-- After the nodes `done`: `size` of them are matched, and the others, `F`, are stuck for good. -/
structure MatchedUpTo (reachable : ReachTable) (nodeCount : Nat) (done : Finset Nat)
    (owner : Nat → Option Nat) (size : Nat) (F Z : Finset Nat) : Prop where
  matching : IsMatching (Leads reachable) (Finset.range nodeCount) owner
  owners : ∀ {x y}, owner y = some x → x ∈ done
  sized : (matched (Finset.range nodeCount) owner).card = size
  closed : Closed (Leads reachable) owner Z
  stuck : ∀ x ∈ F, Stuck (Leads reachable) owner Z x
  among : F ⊆ done
  count : F.card + size = done.card

section
variable {done F Z : Finset Nat} {owner owner' : Nat → Option Nat} {size node : Nat}

theorem MatchedUpTo.spare (h : MatchedUpTo reachable nodeCount done owner size F Z) (hnode : node ∉ done) :
    Spare node [] owner :=
  ⟨fun _ _ hy hy' => h.matching.injective hy hy', fun _ _ howns => hnode (h.owners howns)⟩

/-- A node is matched: one more is owned, and what is closed was not touched. -/
theorem MatchedUpTo.found (h : MatchedUpTo reachable nodeCount done owner size F Z) (hnode : node ∉ done)
    (hlt : node < nodeCount) (haug : Augmented reachable nodeCount node [] owner owner') :
    MatchedUpTo reachable nodeCount (insert node done) owner' (size + 1) F Z := by
  have howners : ∀ {x y}, owner' y = some x → x = node ∨ ∃ y', owner y' = some x := fun hx =>
    (haug.owners (by simp) hx).imp_right fun ⟨y', _, hx'⟩ => ⟨y', hx'⟩
  refine ⟨⟨?_, ?_, haug.injective (by simp) (by simp)⟩, ?_, ?_, ?_, ?_, ?_, ?_⟩
  · intro x y hx
    rcases haug.below hx with hx | ⟨hleads, -⟩
    · exact h.matching.below hx
    · exact hleads
  · intro x y hx
    constructor
    · rcases howners hx with rfl | ⟨y', hy'⟩
      · simpa using hlt
      · exact (h.matching.among hy').1
    · rcases haug.below hx with hx | ⟨-, hy⟩
      · exact (h.matching.among hx).2
      · simpa using hy
  · intro x y hx
    rcases howners hx with rfl | ⟨y', hy'⟩
    · exact Finset.mem_insert_self _ _
    · exact Finset.mem_insert_of_mem (h.owners hy')
  -- the path ends at one node that had no owner, and no other gains one
  · obtain ⟨y, hy, hnone, hiff⟩ := haug.one
    have hinsert : matched (Finset.range nodeCount) owner' =
        insert y (matched (Finset.range nodeCount) owner) := by
      ext y'
      have := hiff y'
      simp only [matched, Finset.mem_filter, Finset.mem_insert, Finset.mem_range,
        Option.isSome_iff_ne_none]
      by_cases hy' : y' = y
      · subst hy'
        simp [hy, this]
      · simp [hy', this]
    rw [hinsert, Finset.card_insert_of_notMem (by simp [matched, hnone]), h.sized]
  · exact h.closed.congr (haug.closed Z h.closed).2
  · intro x hx
    refine ⟨fun y hy => ?_, (h.stuck x hx).2⟩
    rcases howners hy with rfl | ⟨y', hy'⟩
    · exact hnode (h.among hx)
    · exact (h.stuck x hx).1 y' hy'
  · exact h.among.trans (Finset.subset_insert _ _)
  · rw [Finset.card_insert_of_notMem hnode]
    have := h.count
    omega

/-- A node is not matched: what its search marked is closed too. -/
theorem MatchedUpTo.failed (h : MatchedUpTo reachable nodeCount done owner size F Z) (hnode : node ∉ done)
    (hrange : ∀ x y, Leads reachable x y → y < nodeCount) {V : List Nat}
    (hfail : Failed reachable node (List.range nodeCount) [] V owner owner') :
    MatchedUpTo reachable nodeCount (insert node done) owner' size (insert node F) (Z ∪ V.toFinset) := by
  have hV : Closed (Leads reachable) owner V.toFinset := by
    intro z hz
    obtain ⟨x, hx, hinto⟩ := hfail.closed z (List.mem_toFinset.mp hz) (by simp)
    exact ⟨x, hx, fun y hy => List.mem_toFinset.mpr (hinto y hy)⟩
  have hfree : ∀ y, owner y ≠ some node := fun y hy => hnode (h.owners hy)
  have hnodeF : node ∉ F := fun hmem => hnode (h.among hmem)
  rw [hfail.same]
  refine ⟨h.matching, fun hx => Finset.mem_insert_of_mem (h.owners hx), h.sized, h.closed.union hV, ?_,
    Finset.insert_subset_insert _ h.among, ?_⟩
  · intro x hx
    rcases Finset.mem_insert.mp hx with rfl | hx
    · refine ⟨hfree, fun y hy => Finset.mem_union_right _ (List.mem_toFinset.mpr ?_)⟩
      exact hfail.leads y (List.mem_range.mpr (hrange x y hy)) hy
    · exact ⟨(h.stuck x hx).1, fun y hy => Finset.mem_union_left _ ((h.stuck x hx).2 y hy)⟩
  · rw [Finset.card_insert_of_notMem hnode, Finset.card_insert_of_notMem hnodeF]
    have := h.count
    omega

end

theorem matchNodes_spec (hrange : ∀ x y, Leads reachable x y → y < nodeCount) {nodes : List Nat}
    (hnodup : nodes.Nodup) (hlt : ∀ node ∈ nodes, node < nodeCount) {done F Z : Finset Nat}
    (hnew : ∀ node ∈ nodes, node ∉ done) {owner : Nat → Option Nat} {size : Nat}
    (h : MatchedUpTo reachable nodeCount done owner size F Z) :
    ∃ size' owner' F' Z', matchNodes reachable nodeCount nodes owner size = some size' ∧
      MatchedUpTo reachable nodeCount (done ∪ nodes.toFinset) owner' size' F' Z' := by
  induction nodes generalizing done F Z owner size with
  | nil => exact ⟨size, owner, F, Z, rfl, by simpa using h⟩
  | cons node nodes ih =>
    obtain ⟨hnode, hnodup⟩ := List.nodup_cons.mp hnodup
    have hout := augment_sound hrange (nodeCount + 1) ⟨[], owner⟩ node ⟨by simp, by simp⟩
      (h.spare (hnew node List.mem_cons_self)) (by simp)
    have hlt' : ∀ node ∈ nodes, node < nodeCount := fun a ha => hlt a (List.mem_cons_of_mem _ ha)
    have hnew' : ∀ a ∈ nodes, a ∉ insert node done := by
      intro a ha hmem
      rcases Finset.mem_insert.mp hmem with rfl | hmem
      · exact hnode ha
      · exact hnew a (List.mem_cons_of_mem _ ha) hmem
    rw [List.toFinset_cons, Finset.union_insert, ← Finset.insert_union]
    unfold matchNodes
    revert hout
    generalize augment reachable nodeCount (nodeCount + 1) node ⟨[], owner⟩ = out
    intro hout
    cases hout with
    | found augmented =>
      exact ih hnodup hlt' hnew' (h.found (hnew node List.mem_cons_self)
        (hlt node List.mem_cons_self) augmented)
    | failed marks failed =>
      exact ih hnodup hlt' hnew' (h.failed (hnew node List.mem_cons_self) hrange failed)

end

/-! ## The width -/

/-- The result is the largest number of nodes of which none reaches another. -/
theorem maximumParallelWidth_correct {dependents : List (List Nat)} (h : Topological dependents) :
    ∃ width, maximumParallelWidth dependents = some width ∧
      IsGreatest {k | ∃ A : Finset Nat, (∀ a ∈ A, a < dependents.length) ∧
        IsAntichain (Reaches dependents) (A : Set Nat) ∧ A.card = k} width := by
  have hleads : Leads (reachability dependents) = Reaches dependents := by
    funext a b
    exact propext (reachability_iff h)
  have hrange : ∀ x y, Leads (reachability dependents) x y → y < dependents.length := fun x y hxy =>
    (((reachability_iff h).mp hxy).lt h).2
  have hstart : MatchedUpTo (reachability dependents) dependents.length ∅ (fun _ => none) 0 ∅ ∅ :=
    ⟨⟨by simp, by simp, by simp⟩, by simp, by simp [matched], by simp [Closed], by simp, by simp, rfl⟩
  obtain ⟨size, owner, F, Z, hsize, hend⟩ := matchNodes_spec hrange List.nodup_range
    (fun node hnode => List.mem_range.mp hnode) (by simp) hstart
  have hall : (List.range dependents.length).toFinset = Finset.range dependents.length := by
    ext a
    simp
  rw [Finset.empty_union, hall] at hend
  obtain ⟨hmatching, -, hsized, hclosed, hstuck, hamong, hcount⟩ := hend
  rw [hleads] at hmatching hclosed hstuck
  rw [Finset.card_range] at hcount
  have hupper : ∀ A : Finset Nat, (∀ a ∈ A, a < dependents.length) →
      IsAntichain (Reaches dependents) (A : Set Nat) → A.card + size ≤ dependents.length := by
    intro A hA hanti
    have := hmatching.card_le TransGen.trans (fun a haa => lt_irrefl a (haa.lt h).1)
      (fun a ha => Finset.mem_range.mpr (hA a ha)) hanti
    rwa [hsized, Finset.card_range] at this
  obtain ⟨A, hA, hanti, hcard⟩ := hmatching.exists_antichain hclosed hamong hstuck
  have hA' : ∀ a ∈ A, a < dependents.length := fun a ha => Finset.mem_range.mp (hA ha)
  have hfull := hupper A hA' hanti
  refine ⟨dependents.length - size, by rw [maximumParallelWidth, hsize, Option.map_some], ?_, ?_⟩
  · exact ⟨A, hA', hanti, by omega⟩
  · rintro k ⟨B, hB, hantiB, rfl⟩
    have := hupper B hB hantiB
    omega

/-- Two nodes, of which both lead to a third and one to a fourth. -/
theorem maximumParallelWidth_correct_two :
    ∃ width, maximumParallelWidth [[2], [2, 3], [], []] = some width ∧
      IsGreatest {k | ∃ A : Finset Nat, (∀ a ∈ A, a < 4) ∧
        IsAntichain (Reaches [[2], [2, 3], [], []]) (A : Set Nat) ∧ A.card = k} width := by
  refine maximumParallelWidth_correct fun a b hab => ?_
  unfold DependsOn at hab
  match a with
  | 0 => simp at hab; simp [hab]
  | 1 => simp at hab; rcases hab with rfl | rfl <;> simp
  | 2 => simp at hab
  | 3 => simp at hab
  | n + 4 => simp at hab

end CudaqQec
