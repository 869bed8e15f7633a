import Mathlib.Data.Finset.Card
import Mathlib.Data.Finset.Union
import Mathlib.Order.Antichain

/-!
# The width of an order

The largest number of elements of which none is below another. A matching gives elements owners below
them, so that no element owns two. Where what the elements without a match lead to is all owned, and by
elements that lead nowhere else, the matching is as large as it can be, and the width is the number of
elements that own nothing.

* `IsMatching.card_le`: elements of which none is below another, and those owned, are no more than all.
* `IsMatching.exists_antichain`: as many elements of which none is below another as are stuck.
-/

namespace CudaqQec.Width

variable {α : Type} [DecidableEq α] {r : α → α → Prop} {nodes : Finset α} {owner : α → Option α}

/-! ## Matchings -/

/-- Each element has at most one owner, which is below it, and no element owns two. -/
structure IsMatching (r : α → α → Prop) (nodes : Finset α) (owner : α → Option α) : Prop where
  below : ∀ {x y}, owner y = some x → r x y
  among : ∀ {x y}, owner y = some x → x ∈ nodes ∧ y ∈ nodes
  injective : ∀ {x y y'}, owner y = some x → owner y' = some x → y = y'

def matched (nodes : Finset α) (owner : α → Option α) : Finset α :=
  nodes.filter fun y => (owner y).isSome

/-- Elements that all have owners, and owners that lead nowhere else. -/
def Closed (r : α → α → Prop) (owner : α → Option α) (Z : Finset α) : Prop :=
  ∀ z ∈ Z, ∃ x, owner z = some x ∧ ∀ y, r x y → y ∈ Z

/-- An element that owns nothing and leads to elements of `Z` only. -/
def Stuck (r : α → α → Prop) (owner : α → Option α) (Z : Finset α) (x : α) : Prop :=
  (∀ y, owner y ≠ some x) ∧ ∀ y, r x y → y ∈ Z

theorem Closed.union {Z Z' : Finset α} (h : Closed r owner Z) (h' : Closed r owner Z') :
    Closed r owner (Z ∪ Z') := by
  intro z hz
  rcases Finset.mem_union.mp hz with hz | hz
  · obtain ⟨x, hx, hleads⟩ := h z hz
    exact ⟨x, hx, fun y hy => Finset.mem_union_left _ (hleads y hy)⟩
  · obtain ⟨x, hx, hleads⟩ := h' z hz
    exact ⟨x, hx, fun y hy => Finset.mem_union_right _ (hleads y hy)⟩

omit [DecidableEq α] in
theorem Closed.congr {Z : Finset α} {owner' : α → Option α} (h : Closed r owner Z)
    (heq : ∀ z ∈ Z, owner' z = owner z) : Closed r owner' Z := by
  intro z hz
  obtain ⟨x, hx, hleads⟩ := h z hz
  exact ⟨x, (heq z hz).trans hx, hleads⟩

namespace IsMatching

/-! ## Matchings and antichains -/

/-- What is owned above an antichain is no more than what is above it, and the rest is owned by what is
neither above it nor in it. -/
theorem card_le (h : IsMatching r nodes owner) (htrans : ∀ {x y z}, r x y → r y z → r x z)
    (hirrefl : ∀ x, ¬ r x x) {A : Finset α} (hA : A ⊆ nodes) (hanti : IsAntichain r (A : Set α)) :
    A.card + (matched nodes owner).card ≤ nodes.card := by
  classical
  let above : α → Prop := fun y => ∃ x ∈ A, r x y
  have hapart : ∀ y, above y → y ∉ A := by
    rintro y ⟨x, hx, hxy⟩ hy
    have hne : x ≠ y := fun heq => hirrefl y (heq ▸ hxy)
    exact hanti hx hy hne hxy
  have howner : ∀ {x y}, owner y = some x → ¬ above y → ¬ above x ∧ x ∉ A := by
    intro x y hxy hy
    refine ⟨?_, fun hx => hy ⟨x, hx, h.below hxy⟩⟩
    rintro ⟨a, ha, hax⟩
    exact hy ⟨a, ha, htrans hax (h.below hxy)⟩
  let charge : α → α := fun y => if above y then y else (owner y).getD y
  have hcharge : (matched nodes owner).card ≤ (nodes \ A).card := by
    apply Finset.card_le_card_of_injOn charge
    · intro y hy
      obtain ⟨hynodes, hsome⟩ := Finset.mem_filter.mp hy
      obtain ⟨x, hx⟩ := Option.isSome_iff_exists.mp hsome
      by_cases hy : above y
      · simpa [charge, hy] using ⟨hynodes, hapart y hy⟩
      · simpa [charge, hy, hx] using ⟨(h.among hx).1, (howner hx hy).2⟩
    · intro y hy y' hy' heq
      obtain ⟨x, hx⟩ := Option.isSome_iff_exists.mp (Finset.mem_filter.mp hy).2
      obtain ⟨x', hx'⟩ := Option.isSome_iff_exists.mp (Finset.mem_filter.mp hy').2
      by_cases hab : above y <;> by_cases hab' : above y' <;>
        simp only [charge, hab, hab', hx, hx', if_true, if_false, Option.getD_some] at heq
      · exact heq
      · exact absurd (heq ▸ hab) (howner hx' hab').1
      · exact absurd (heq ▸ hab') (howner hx hab).1
      · exact h.injective hx (heq ▸ hx')
  have hsplit := Finset.card_sdiff_add_card_eq_card hA
  omega

/-- The elements that are stuck and the owners of a closed set, but for those of the set itself, lead to
none of each other. -/
theorem exists_antichain (h : IsMatching r nodes owner) {Z F : Finset α} (hZ : Closed r owner Z)
    (hF : F ⊆ nodes) (hstuck : ∀ x ∈ F, Stuck r owner Z x) :
    ∃ A ⊆ nodes, IsAntichain r (A : Set α) ∧ F.card ≤ A.card := by
  -- what owns an element of the closed set leads into the set only
  let owners : Finset α := Z.image fun z => (owner z).getD z
  have hown : ∀ x ∈ owners, ∃ z ∈ Z, owner z = some x ∧ ∀ y, r x y → y ∈ Z := by
    intro x hx
    obtain ⟨z, hz, rfl⟩ := Finset.mem_image.mp hx
    obtain ⟨x, hx, hleads⟩ := hZ z hz
    simp only [hx, Option.getD_some]
    exact ⟨z, hz, hx, hleads⟩
  -- an element has one owner, and no two have the same
  have hcard : owners.card = Z.card := by
    apply Finset.card_image_of_injOn
    intro z hz z' hz' heq
    obtain ⟨x, hx, -⟩ := hZ z hz
    obtain ⟨x', hx', -⟩ := hZ z' hz'
    simp only [hx, hx', Option.getD_some] at heq
    exact h.injective hx (heq ▸ hx')
  have hdisjoint : Disjoint F owners := by
    rw [Finset.disjoint_left]
    intro x hxF hx
    obtain ⟨z, -, hz, -⟩ := hown x hx
    exact (hstuck x hxF).1 z hz
  have hleads : ∀ x ∈ F ∪ owners, ∀ y, r x y → y ∈ Z := by
    intro x hx
    rcases Finset.mem_union.mp hx with hx | hx
    · exact (hstuck x hx).2
    · obtain ⟨-, -, -, hleads⟩ := hown x hx
      exact hleads
  refine ⟨(F ∪ owners) \ Z, ?_, ?_, ?_⟩
  · intro x hx
    rcases Finset.mem_union.mp (Finset.mem_sdiff.mp hx).1 with hx | hx
    · exact hF hx
    · obtain ⟨z, -, hz, -⟩ := hown x hx
      exact (h.among hz).1
  -- a relation between two of them would put the second into the set
  · intro x hx y hy _ hxy
    have hx' := Finset.mem_sdiff.mp (Finset.mem_coe.mp hx)
    have hy' := Finset.mem_sdiff.mp (Finset.mem_coe.mp hy)
    exact hy'.2 (hleads x hx'.1 y hxy)
  · have hunion := Finset.card_union_of_disjoint hdisjoint
    have hdiff := Finset.le_card_sdiff Z (F ∪ owners)
    omega

end IsMatching

end CudaqQec.Width
