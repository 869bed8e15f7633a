import CudaqQec.Window.Columns
import Mathlib.Data.Fintype.Pi
import Mathlib.Algebra.Field.Rat
import Mathlib.Algebra.Field.ZMod

/-!
# The grouping of fault columns is sound

What `group_fault_columns` promises of its groups, for every combination of the column options, and that
merging columns with the same rows and observables leaves the distribution of detectors and observables
what it was.

* `classGroups_spec`: the groups of one class.
* `groupFaultColumns_sound`: the groups of a window.
-/

namespace CudaqQec

open Checked Placed Mechanisms

namespace ChainColumns

/-! ## One group -/

def twins (closed : ChainColumns) (first : Nat) (g : List Nat) (j : Nat) : List Nat :=
  (g.filter fun i => closed.effect first i = closed.effect first j).insertionSort (· ≤ ·)

/-- The first column of a group is the one its corrections are reported against: no effect of the group
is likelier than its own, and no column with that effect is likelier than it is. -/
structure FrontKept (closed : ChainColumns) (first : Nat) (g : List Nat) : Prop where
  kept : ∀ j ∈ g, closed.Likelier first (closed.twins first g (g.headD 0)) (closed.twins first g j)
  largest : ∀ j ∈ g, closed.effect first j = closed.effect first (g.headD 0) →
    closed.rate first j < closed.rate first (g.headD 0) ∨
      closed.rate first j = closed.rate first (g.headD 0) ∧ g.headD 0 ≤ j

/-- What holds of a group of a class, under the column it is entered at. -/
structure GroupOf (closed : ChainColumns) (first : Nat) (options : ColumnOptions)
    (w : Nat × List Nat) : Prop where
  atLeast : AtLeast w
  front : closed.FrontKept first w.2
  same_effect : options.conflictingParallel = .reject → ∀ a ∈ w.2, ∀ b ∈ w.2,
    closed.effect first a = closed.effect first b

variable {closed : ChainColumns} {first : Nat}

theorem twins_of_perm {g m : List Nat} (hperm : g.Perm m) (hm : m.Pairwise (· < ·)) (j : Nat) :
    closed.twins first g j = m.filter fun i => closed.effect first i = closed.effect first j := by
  apply List.Perm.eq_of_pairwise' (r := (· ≤ ·))
  · exact List.pairwise_insertionSort _ _
  · exact (hm.imp le_of_lt).filter _
  · exact (List.perm_insertionSort _ _).trans (hperm.filter _)

theorem groupOf_byRate (options : ColumnOptions) {part : List Nat} (hne : part ≠ [])
    (hsorted : part.Pairwise (· < ·))
    (heffect : ∀ a ∈ part, ∀ b ∈ part, closed.effect first a = closed.effect first b) :
    closed.GroupOf first options (part.headD 0, closed.byRate first part) := by
  have hperm := byRate_perm closed first part
  obtain ⟨hfront, hlargest⟩ := headD_byRate closed first hne hsorted
  refine ⟨⟨?_, ?_⟩, ⟨?_, ?_⟩, ?_⟩
  · exact hperm.mem_iff.mpr (headD_mem hne)
  · intro j hj
    obtain ⟨a, rest, rfl⟩ := List.exists_cons_of_ne_nil hne
    rcases List.mem_cons.mp (hperm.mem_iff.mp hj) with rfl | hj
    · exact le_refl _
    · exact ((List.pairwise_cons.mp hsorted).1 j hj).le
  · intro j hj
    rw [twins_of_perm hperm hsorted, twins_of_perm hperm hsorted,
      heffect _ hfront j (hperm.mem_iff.mp hj)]
    exact .inr ⟨rfl, le_refl _⟩
  · intro j hj _
    exact hlargest j (hperm.mem_iff.mp hj)
  · intro _ a ha b hb
    exact heffect a (hperm.mem_iff.mp ha) b (hperm.mem_iff.mp hb)

theorem groupOf_singleton (closed : ChainColumns) (first : Nat) (options : ColumnOptions) (j : Nat) :
    closed.GroupOf first options (j, [j]) := by
  apply groupOf_byRate options (List.cons_ne_nil j []) (List.pairwise_singleton _ _)
  intro a ha b hb
  rw [List.mem_singleton.mp ha, List.mem_singleton.mp hb]

/-! ## One class -/

section Class
variable {members : List Nat}

theorem part_spec (closed : ChainColumns) (first : Nat) (hsorted : members.Pairwise (· < ·)) {e : List Nat × List Nat}
    (he : e ∈ SortedMap.classes (closed.effect first) members) :
    e.2 ≠ [] ∧ e.2.Pairwise (· < ·) ∧ (∀ j ∈ e.2, closed.effect first j = e.1) ∧
      e.2 = members.filter fun j => closed.effect first j = e.1 := by
  obtain ⟨hne, hpart⟩ := SortedMap.mem_classes.mp he
  refine ⟨hne, ?_, ?_, hpart⟩
  · rw [hpart]
    exact hsorted.filter _
  · intro j hj
    rw [hpart] at hj
    simpa using (List.mem_filter.mp hj).2

/-- A class whose effects are merged: the columns of the kept effect, then the others. -/
theorem groupOf_mostLikely (hsorted : members.Pairwise (· < ·)) {options : ColumnOptions}
    (hoptions : options.conflictingParallel = .mostLikely) {kept : List Nat × List Nat}
    (hkept : kept ∈ SortedMap.classes (closed.effect first) members)
    (hall : ∀ e ∈ SortedMap.classes (closed.effect first) members,
      closed.Likelier first kept.2 e.2) {rest : List Nat}
    (hperm : (closed.byRate first kept.2 ++ rest).Perm members) :
    closed.GroupOf first options (members.headD 0, closed.byRate first kept.2 ++ rest) := by
  obtain ⟨hne, hpart, heffect, hfilter⟩ := part_spec closed first hsorted hkept
  obtain ⟨hfront, hlargest⟩ := headD_byRate closed first hne hpart
  have hhead : (closed.byRate first kept.2 ++ rest).headD 0 = (closed.byRate first kept.2).headD 0 := by
    cases hsort : closed.byRate first kept.2 with
    | nil =>
      have := (byRate_perm closed first kept.2).length_eq
      rw [hsort] at this
      exact absurd (List.eq_nil_of_length_eq_zero this.symm) hne
    | cons a l => rfl
  have hmembers : members ≠ [] := by
    rintro rfl
    rw [hfilter] at hne
    exact hne rfl
  -- the twins of a column are the columns of its effect
  have htwins : ∀ j ∈ members, ∃ e ∈ SortedMap.classes (closed.effect first) members,
      e.1 = closed.effect first j ∧
      closed.twins first (closed.byRate first kept.2 ++ rest) j = e.2 := by
    intro j hj
    have htwin : j ∈ members.filter fun i => closed.effect first i = closed.effect first j :=
      List.mem_filter.mpr ⟨hj, by simp⟩
    refine ⟨(closed.effect first j, _), SortedMap.mem_classes.mpr ⟨?_, rfl⟩, rfl, ?_⟩
    · exact List.ne_nil_of_mem htwin
    · exact twins_of_perm hperm hsorted j
  have hsame : ∀ e ∈ SortedMap.classes (closed.effect first) members, e.1 = kept.1 → e.2 = kept.2 := by
    intro e he heq
    rw [(part_spec closed first hsorted he).2.2.2, hfilter, heq]
  have hfirst : (closed.byRate first kept.2).headD 0 ∈ members := by
    rw [hfilter] at hfront
    rw [hfilter]
    exact (List.mem_filter.mp hfront).1
  refine ⟨⟨?_, ?_⟩, ⟨?_, ?_⟩, ?_⟩
  · exact hperm.mem_iff.mpr (headD_mem hmembers)
  · intro j hj
    obtain ⟨a, l, rfl⟩ := List.exists_cons_of_ne_nil hmembers
    rcases List.mem_cons.mp (hperm.mem_iff.mp hj) with rfl | hj
    · exact le_refl _
    · exact ((List.pairwise_cons.mp hsorted).1 j hj).le
  · intro j hj
    obtain ⟨e, he, -, htwin⟩ := htwins j (hperm.mem_iff.mp hj)
    obtain ⟨e₀, he₀, heq, htwin₀⟩ := htwins _ hfirst
    rw [heffect _ hfront] at heq
    rw [hhead, htwin, htwin₀, hsame e₀ he₀ heq]
    exact hall e he
  · intro j hj heq
    rw [hhead] at heq ⊢
    apply hlargest
    rw [heffect _ hfront] at heq
    rw [hfilter]
    exact List.mem_filter.mpr ⟨hperm.mem_iff.mp hj, by simpa using heq⟩
  · intro hreject
    rw [hoptions] at hreject
    cases hreject

/-- The kept effect's columns and the others are all columns of the class. -/
theorem kept_append_rest_perm {kept : List Nat × List Nat}
    (hkept : kept ∈ SortedMap.classes (closed.effect first) members) :
    (closed.byRate first kept.2 ++ closed.byRate first
      ((((SortedMap.classes (closed.effect first) members).filter fun e => e ≠ kept).flatMap
        Prod.snd).insertionSort (· ≤ ·))).Perm members := by
  set es := SortedMap.classes (closed.effect first) members with hes
  have hkeys : (es.map Prod.fst).Nodup := (SortedMap.sorted_group _ _ _ members).imp ne_of_lt
  have hsplit : (kept :: es.filter fun e => e ≠ kept).Perm es := by
    have herase := (List.perm_cons_erase hkept).symm
    rw [(List.Nodup.of_map _ hkeys).erase_eq_filter] at herase
    have hfilter : (es.filter fun e => decide (e ≠ kept)) = es.filter (· != kept) :=
      List.filter_congr fun e _ => by rw [Bool.eq_iff_iff]; simp
    rwa [hfilter]
  have hrest := (byRate_perm closed first _).trans (List.perm_insertionSort (· ≤ ·)
    ((es.filter fun e => e ≠ kept).flatMap Prod.snd))
  refine ((byRate_perm closed first kept.2).append hrest).trans ?_
  rw [← List.flatMap_cons (f := Prod.snd)]
  exact (hsplit.flatMap_right Prod.snd).trans (SortedMap.classes_perm _ members)

/-- A class is cut into groups, each under its least column. -/
theorem classGroups_spec (h : closed.Valid) (hsorted : members.Pairwise (· < ·))
    (hne : members ≠ []) (hlen : members.length ≤ 2 ^ 32) (options : ColumnOptions) :
    ((closed.classGroups first options members).flatMap Prod.snd).Perm members ∧
      ∀ w ∈ closed.classGroups first options members, closed.GroupOf first options w := by
  have hperm := SortedMap.classes_perm (closed.effect first) members
  have hpart := fun e he => part_spec closed first hsorted he (e := e)
  unfold classGroups
  dsimp only
  set es := SortedMap.classes (closed.effect first) members with hes
  have heffect : ∀ e ∈ es, ∀ a ∈ e.2, ∀ b ∈ e.2, closed.effect first a = closed.effect first b := by
    intro e he a ha b hb
    rw [(hpart e he).2.2.1 a ha, (hpart e he).2.2.1 b hb]
  -- columns of other effects stand apart, unless the likeliest of them is to stand for all
  by_cases hoptions : options.conflictingParallel ≠ .mostLikely ∨ es.length = 1
  · rw [if_pos hoptions]
    split
    · constructor
      · rw [List.flatMap_map]
        refine .trans ?_ hperm
        exact List.Perm.flatMap_left es fun e _ => byRate_perm closed first e.2
      · intro w hw
        obtain ⟨e, he, rfl⟩ := List.mem_map.mp hw
        exact groupOf_byRate options (hpart e he).1 (hpart e he).2.1 (heffect e he)
    · constructor
      · rw [List.flatMap_assoc]
        refine .trans ?_ hperm
        apply List.Perm.flatMap_left es
        intro e _
        rw [List.flatMap_map, List.flatMap_singleton']
      · intro w hw
        obtain ⟨e, -, hw⟩ := List.mem_flatMap.mp hw
        obtain ⟨j, -, rfl⟩ := List.mem_map.mp hw
        exact groupOf_singleton closed first options j
  · rw [if_neg hoptions]
    simp only [not_or, not_not] at hoptions
    -- one effect is kept, and the rest of the class goes with it
    have hes_ne : es ≠ [] := by
      rintro heq
      rw [heq] at hperm
      exact hne hperm.symm.eq_nil
    obtain ⟨kept, hkept, hfold, hall⟩ := exists_kept closed first hes_ne (by
      intro e he
      apply oddRate_gt h
      rw [(hpart e he).2.2.2]
      exact (List.length_filter_le _ _).trans hlen)
    rw [hfold]
    have hrest := kept_append_rest_perm hkept
    constructor
    · simpa using hrest
    · intro w hw
      rw [List.mem_singleton.mp hw]
      exact groupOf_mostLikely hsorted hoptions.1 hkept hall hrest

end Class

/-! ## The groups of a window -/

/-- Groups that share out the columns of a window: each within one zone and one set of rows, by their
least columns, with the column they are reported against first. -/
structure SoundGroups (closed : ChainColumns) (first : Nat) (zone : List Nat)
    (groups : List (List Nat)) : Prop where
  partition : groups.flatten.Perm (List.range zone.length)
  nonempty : ∀ g ∈ groups, g ≠ []
  same_class : ∀ g ∈ groups, ∀ a ∈ g, ∀ b ∈ g,
    zone.getD a 0 = zone.getD b 0 ∧ closed.fullRows first a = closed.fullRows first b
  ordered : groups.Pairwise fun g g' => least g < least g'
  front : ∀ g ∈ groups, closed.FrontKept first g

section Window
variable {zone : List Nat}

theorem soundGroups_singletons :
    closed.SoundGroups first zone ((List.range zone.length).map fun j => [j]) where
  partition := by
    rw [← List.flatMap_def, List.flatMap_singleton']
  nonempty := by
    intro g hg
    obtain ⟨j, -, rfl⟩ := List.mem_map.mp hg
    exact List.cons_ne_nil j []
  same_class := by
    intro g hg a ha b hb
    obtain ⟨j, -, rfl⟩ := List.mem_map.mp hg
    rw [List.mem_singleton.mp ha, List.mem_singleton.mp hb]
    exact ⟨rfl, rfl⟩
  ordered := by
    rw [List.pairwise_map]
    refine List.pairwise_lt_range.imp ?_
    intro a b hab
    rwa [(groupOf_singleton closed first {} a).atLeast.least_eq,
      (groupOf_singleton closed first {} b).atLeast.least_eq]
  front := by
    intro g hg
    obtain ⟨j, -, rfl⟩ := List.mem_map.mp hg
    exact (groupOf_singleton closed first {} j).front

/-- The classes of a window's columns, with their groups. -/
theorem groups_spec (h : closed.Valid) (hzone : first + zone.length ≤ closed.rows.length)
    (options : ColumnOptions) :
    closed.SoundGroups first zone (closed.groupFaultColumns first zone options) ∧
      (options.conflictingParallel = .reject →
        ∀ g ∈ closed.groupFaultColumns first zone options, ∀ a ∈ g, ∀ b ∈ g,
          closed.effect first a = closed.effect first b) := by
  unfold groupFaultColumns
  split
  -- without grouping each column is a group of its own
  · refine ⟨soundGroups_singletons, ?_⟩
    intro _ g hg a ha b hb
    obtain ⟨j, -, rfl⟩ := List.mem_map.mp hg
    rw [List.mem_singleton.mp ha, List.mem_singleton.mp hb]
  · dsimp only
    set key := fun j => toLex (zone.getD j 0, closed.fullRows first j) with hkey
    set classes := SortedMap.classes key (List.range zone.length) with hclasses
    set ws := classes.flatMap fun e => closed.classGroups first options e.2 with hws
    -- a class holds the columns of one first round that set the same rows
    have hclass : ∀ e ∈ classes, e.2 ≠ [] ∧ e.2 = (List.range zone.length).filter fun j => key j = e.1 :=
      fun e he => SortedMap.mem_classes.mp he
    have hspec : ∀ e ∈ classes, ((closed.classGroups first options e.2).flatMap Prod.snd).Perm e.2 ∧
        ∀ w ∈ closed.classGroups first options e.2, closed.GroupOf first options w := by
      intro e he
      obtain ⟨hne, heq⟩ := hclass e he
      apply classGroups_spec h _ hne
      · have hlen := List.length_filter_le (fun j => decide (key j = e.1)) (List.range zone.length)
        have := h.length_le
        rw [heq]
        rw [List.length_range] at hlen
        omega
      · rw [heq]
        exact List.pairwise_lt_range.filter _
    have hgroup : ∀ w ∈ ws, closed.GroupOf first options w := by
      intro w hw
      obtain ⟨e, he, hw⟩ := List.mem_flatMap.mp hw
      exact (hspec e he).2 w hw
    -- the groups of all classes hold each column once
    have hperm : (ws.flatMap Prod.snd).Perm (List.range zone.length) := by
      rw [hws, List.flatMap_assoc]
      exact (List.Perm.flatMap_left classes fun e he => (hspec e he).1).trans
        (SortedMap.classes_perm key _)
    obtain ⟨hplaced, hordered⟩ := placed_of_perm_range (fun w hw => (hgroup w hw).atLeast) hperm
    have hfrom : ∀ g ∈ placed zone.length ws, ∃ w ∈ ws, w.2 = g := fun g hg =>
      List.mem_map.mp (hplaced.mem_iff.mp hg)
    refine ⟨⟨?_, ?_, ?_, hordered, ?_⟩, ?_⟩
    · refine hplaced.flatten.trans ?_
      rwa [← List.flatMap_def]
    · intro g hg
      obtain ⟨w, hw, rfl⟩ := hfrom g hg
      exact List.ne_nil_of_mem (hgroup w hw).atLeast.1
    · intro g hg a ha b hb
      obtain ⟨w, hw, rfl⟩ := hfrom g hg
      obtain ⟨e, he, hw⟩ := List.mem_flatMap.mp hw
      have hmem : ∀ j ∈ w.2, key j = e.1 := by
        intro j hj
        have hj : j ∈ e.2 := (hspec e he).1.mem_iff.mp (List.mem_flatMap.mpr ⟨w, hw, hj⟩)
        rw [(hclass e he).2] at hj
        simpa using (List.mem_filter.mp hj).2
      have hsame := (hmem a ha).trans (hmem b hb).symm
      exact Prod.mk.inj (toLex.injective hsame)
    · intro g hg
      obtain ⟨w, hw, rfl⟩ := hfrom g hg
      exact (hgroup w hw).front
    · intro hreject g hg
      obtain ⟨w, hw, rfl⟩ := hfrom g hg
      exact (hgroup w hw).same_effect hreject

end Window

/-! ## The distribution -/

/-- A fault column of a window: its rows there, its observables, and its prior. -/
structure FaultColumn where
  rows : List Nat
  observables : List Nat
  prior : ℚ

def FaultColumn.flips (detectors observables : Nat) (c : FaultColumn) :
    (Fin detectors → ZMod 2) × (Fin observables → ZMod 2) :=
  (fun r => c.rows.count r.val, fun o => c.observables.count o.val)

def jointProbability (columns : List FaultColumn) {detectors observables : Nat}
    (x : (Fin detectors → ZMod 2) × (Fin observables → ZMod 2)) : ℚ :=
  outcomeProbability columns.length (fun i => (columns.getD i ⟨[], [], 0⟩).prior)
    (fun i => (columns.getD i ⟨[], [], 0⟩).flips detectors observables) x

/-- The fault columns of a window, each with the XOR-combined prior of its group, over exact rates. -/
def faultColumns (closed : ChainColumns) (first : Nat) (windowRow : Nat → Option Nat)
    (groups : List (List Nat)) : List FaultColumn :=
  groups.map fun g => {
    rows := closed.rowsInWindow windowRow (first + g.headD 0)
    observables := closed.effect first (g.headD 0)
    prior := xorRates (g.map (closed.rate first)) }

section Distribution
variable (detectors observables : Nat)

theorem flips_add_self (c : FaultColumn) :
    c.flips detectors observables + c.flips detectors observables = 0 := by
  have htwo : ∀ x : ZMod 2, x + x = 0 := by decide
  apply Prod.ext
  · funext r
    exact htwo _
  · funext r
    exact htwo _

variable {detectors observables} in
theorem coeff_law_columns (columns : List FaultColumn)
    (x : (Fin detectors → ZMod 2) × (Fin observables → ZMod 2)) :
    jointProbability columns x =
      (law (columns.map fun c => (c.prior, c.flips detectors observables))).coeff x := by
  rw [jointProbability, ← coeff_law]
  congr 2
  conv_rhs => rw [← map_getD_range columns ⟨[], [], 0⟩, List.map_map]
  rfl

/-- Groups of columns that flip the same have the law of their columns. -/
theorem law_faultColumns (windowRow : Nat → Option Nat) {groups : List (List Nat)}
    (hne : ∀ g ∈ groups, g ≠ [])
    (hsame : ∀ g ∈ groups, ∀ a ∈ g, ∀ b ∈ g, closed.fullRows first a = closed.fullRows first b ∧
      closed.effect first a = closed.effect first b) :
    law ((closed.faultColumns first windowRow groups).map fun c =>
        (c.prior, c.flips detectors observables)) =
      law ((closed.faultColumns first windowRow (groups.flatten.map fun j => [j])).map fun c =>
        (c.prior, c.flips detectors observables)) := by
  induction groups with
  | nil => rfl
  | cons g groups ih =>
    have hrest := ih (fun g' hg' => hne g' (by simp [hg'])) fun g' hg' => hsame g' (by simp [hg'])
    have hgroup := hsame g (by simp)
    have hfront : g.headD 0 ∈ g := headD_mem (hne g (by simp))
    simp only [faultColumns, List.map_cons, List.flatten_cons, List.map_append, law_cons,
      law_append] at hrest ⊢
    rw [hrest]
    congr 1
    rw [← prod_factor (flips_add_self detectors observables _), law]
    simp only [List.map_map]
    congr 1
    apply List.map_congr_left
    intro j hj
    obtain ⟨hrows, heffect⟩ := hgroup j hj _ hfront
    have hone : xorRates [closed.rate first j] = closed.rate first j := by
      change xorRate 0 _ = _
      unfold xorRate
      ring
    have hwindow : closed.rowsInWindow windowRow (first + j) =
        closed.rowsInWindow windowRow (first + g.headD 0) := congrArg (List.filterMap windowRow) hrows
    simp only [Function.comp_apply, List.headD_cons, List.map_singleton, hone, FaultColumn.flips, hwindow,
      heffect]

end Distribution

/-- `group_fault_columns` is a sound merge: its groups share out the window's columns. Where conflicting
columns are rejected, merged or not, one column for each group, with the XOR-combined prior, has the joint
distribution of detectors and observables of the columns themselves. -/
theorem groupFaultColumns_sound (closed : ChainColumns) (hclosed : closed.Valid) (first : Nat)
    (zone : List Nat) (hzone : first + zone.length ≤ closed.rows.length) (options : ColumnOptions) :
    closed.SoundGroups first zone (closed.groupFaultColumns first zone options) ∧
      (options.conflictingParallel = .reject →
        ∀ (windowRow : Nat → Option Nat) (detectors observables : Nat)
          (x : (Fin detectors → ZMod 2) × (Fin observables → ZMod 2)),
          jointProbability (closed.faultColumns first windowRow
            (closed.groupFaultColumns first zone options)) x =
          jointProbability (closed.faultColumns first windowRow
            ((List.range zone.length).map fun j => [j])) x) := by
  obtain ⟨hsound, heffect⟩ := groups_spec hclosed hzone options
  refine ⟨hsound, ?_⟩
  intro hreject windowRow detectors observables x
  have hlaw := law_faultColumns detectors observables windowRow hsound.nonempty
    fun g hg a ha b hb => ⟨(hsound.same_class g hg a ha b hb).2, heffect hreject g hg a ha b hb⟩
  rw [coeff_law_columns, coeff_law_columns, hlaw]
  congr 2
  apply law_perm
  apply List.Perm.map
  exact (hsound.partition.map _).map _

def threeColumns : ChainColumns where
  numRows := 2
  numObservables := 1
  rows := [[0], [0], [1]]
  observables := [[], [], [0]]
  priors := [1 / 10, 1 / 5, 1 / 10]

theorem groupFaultColumns_sound_three : threeColumns.Valid ∧
    threeColumns.SoundGroups 0 [0, 0, 0] [[1, 0], [2]] ∧
    ∀ x : (Fin 2 → ZMod 2) × (Fin 1 → ZMod 2),
      jointProbability (threeColumns.faultColumns 0 some [[1, 0], [2]]) x =
        jointProbability (threeColumns.faultColumns 0 some [[0], [1], [2]]) x := by
  have hvalid : threeColumns.Valid := ⟨by decide, by decide +kernel⟩
  have hgroups : threeColumns.groupFaultColumns 0 [0, 0, 0] ⟨true, .reject⟩ = [[1, 0], [2]] := by
    decide +kernel
  obtain ⟨hsound, hjoint⟩ :=
    groupFaultColumns_sound threeColumns hvalid 0 [0, 0, 0] (by decide) ⟨true, .reject⟩
  rw [hgroups] at hsound hjoint
  exact ⟨hvalid, hsound, hjoint rfl some 2 1⟩

end ChainColumns

end CudaqQec
