import CudaqQec.Lib.Lists
import Mathlib.Data.List.Induction
import Mathlib.Data.List.Nodup

/-!
# Lists written to places

Lists are written to numbered places, each to a place of its own, and the places that hold something are
read in order. What is read are the lists that were written, sorted by place (`exists_sorted`). Where the
lists share out some items, and each goes to the place of its least item, the lists come in the order of
their least items (`placed_of_perm_range`).
-/

namespace CudaqQec.Placed

section
variable {α : Type} {n : Nat} {ws : List (Nat × List α)}

def places (n : Nat) (ws : List (Nat × List α)) : List (List α) :=
  ws.foldl (fun acc w => acc.set w.1 w.2) (List.replicate n [])

def placed (n : Nat) (ws : List (Nat × List α)) : List (List α) :=
  (places n ws).filter fun g => !g.isEmpty

theorem places_concat (w : Nat × List α) : places n (ws ++ [w]) = (places n ws).set w.1 w.2 := by
  rw [places, List.foldl_append]
  rfl

theorem length_places : (places n ws).length = n := by
  induction ws using List.reverseRecOn with
  | nil => exact List.length_replicate
  | append_singleton ws w ih => rw [places_concat, List.length_set, ih]

/-- A place holds what was written to it. -/
theorem getElem?_places (hnodup : (ws.map Prod.fst).Nodup) (hlt : ∀ w ∈ ws, w.1 < n)
    (hne : ∀ w ∈ ws, w.2 ≠ []) {i : Nat} {g : List α} :
    (places n ws)[i]? = some g ∧ g ≠ [] ↔ (i, g) ∈ ws := by
  induction ws using List.reverseRecOn with
  | nil =>
    change (List.replicate n [])[i]? = some g ∧ g ≠ [] ↔ _
    rw [List.getElem?_replicate]
    constructor
    · rintro ⟨h, hg⟩
      split at h
      · exact absurd (Option.some.inj h).symm hg
      · cases h
    · intro h
      cases h
  | append_singleton ws w ih =>
    rw [List.map_append, List.nodup_append] at hnodup
    have ih := ih hnodup.1 (fun v hv => hlt v (by simp [hv])) fun v hv => hne v (by simp [hv])
    have hfresh : ∀ v ∈ ws, v.1 ≠ w.1 := fun v hv =>
      hnodup.2.2 v.1 (List.mem_map_of_mem hv) w.1 (by simp)
    rw [places_concat, List.mem_append, List.mem_singleton]
    -- the last entry was written to its own place
    by_cases hi : w.1 = i
    · subst hi
      have hw : w.1 < (places n ws).length := by
        rw [length_places]
        exact hlt w (by simp)
      rw [List.getElem?_set_self hw, Option.some.injEq]
      constructor
      · rintro ⟨rfl, -⟩
        exact .inr rfl
      · rintro (h | h)
        · exact absurd rfl (hfresh (w.1, g) h)
        · rw [← h]
          exact ⟨rfl, fun hg => hne w (by simp) (by rw [← h]; exact hg)⟩
    · rw [List.getElem?_set_ne hi, ih]
      constructor
      · exact .inl
      · rintro (h | h)
        · exact h
        · exact absurd (congrArg Prod.fst h).symm hi

/-- What is read is what was written, by place. -/
theorem exists_sorted (hnodup : (ws.map Prod.fst).Nodup) (hlt : ∀ w ∈ ws, w.1 < n)
    (hne : ∀ w ∈ ws, w.2 ≠ []) :
    ∃ sorted : List (Nat × List α), sorted.Perm ws ∧ (sorted.map Prod.fst).Pairwise (· < ·) ∧
      placed n ws = sorted.map Prod.snd := by
  set kept := (places n ws).zipIdx.filter fun p => !p.1.isEmpty with hkept
  have hfst : (kept.map Prod.swap).map Prod.fst = kept.map Prod.snd := by
    rw [List.map_map]
    rfl
  have hsnd : (kept.map Prod.swap).map Prod.snd = kept.map Prod.fst := by
    rw [List.map_map]
    rfl
  have hsorted : (kept.map Prod.snd).Pairwise (· < ·) := by
    refine List.Pairwise.sublist ((List.filter_sublist).map Prod.snd) ?_
    rw [List.zipIdx_map_snd]
    exact List.pairwise_lt_range'
  refine ⟨kept.map Prod.swap, ?_, by rwa [hfst], ?_⟩
  · apply (List.perm_ext_iff_of_nodup ?_ hnodup.of_map).mpr
    · rintro ⟨i, g⟩
      have hswap : (i, g) ∈ kept.map Prod.swap ↔ (g, i) ∈ kept :=
        List.mem_map_of_injective Prod.swap_injective (a := (g, i))
      rw [← getElem?_places hnodup hlt hne, hswap, hkept, List.mem_filter,
        List.mem_zipIdx_iff_getElem?]
      simp
    · apply List.Nodup.of_map Prod.fst
      rw [hfst]
      exact hsorted.imp ne_of_lt
  · rw [hsnd, hkept, placed]
    conv_lhs => rw [← List.zipIdx_map_fst 0 (places n ws), List.filter_map]
    rfl

end

/-! ## Sharing out a range -/

def AtLeast (w : Nat × List Nat) : Prop := w.1 ∈ w.2 ∧ ∀ j ∈ w.2, w.1 ≤ j

def least (g : List Nat) : Nat := g.foldl min (g.headD 0)

theorem AtLeast.least_eq {w : Nat × List Nat} (h : AtLeast w) : least w.2 = w.1 := by
  apply le_antisymm
  · exact (foldl_min_le (l := w.2) (x := w.2.headD 0)).2 _ h.1
  · apply le_foldl_min_iff.mpr
    exact ⟨h.2 _ (headD_mem (List.ne_nil_of_mem h.1)), h.2⟩

/-- Lists that share out the items of a range and go to the places of their least items. -/
theorem placed_of_perm_range {n : Nat} {ws : List (Nat × List Nat)} (hat : ∀ w ∈ ws, AtLeast w)
    (hperm : (ws.flatMap Prod.snd).Perm (List.range n)) :
    (placed n ws).Perm (ws.map Prod.snd) ∧
      (placed n ws).Pairwise fun g g' => least g < least g' := by
  have hmem : ∀ w ∈ ws, w.1 ∈ ws.flatMap Prod.snd := fun w hw =>
    List.mem_flatMap.mpr ⟨w, hw, (hat w hw).1⟩
  have hlt : ∀ w ∈ ws, w.1 < n := fun w hw => List.mem_range.mp (hperm.mem_iff.mp (hmem w hw))
  have hnodup : (ws.map Prod.fst).Nodup := by
    have hdisjoint := (List.nodup_flatMap.mp (hperm.nodup_iff.mpr List.nodup_range)).2
    rw [List.Nodup, List.pairwise_map]
    refine hdisjoint.imp_of_mem ?_
    intro v w hv hw hvw heq
    exact hvw (hat v hv).1 (heq ▸ (hat w hw).1)
  obtain ⟨sorted, hsp, hsorted, heq⟩ :=
    exists_sorted hnodup hlt fun w hw => List.ne_nil_of_mem (hat w hw).1
  rw [heq]
  refine ⟨hsp.map Prod.snd, ?_⟩
  rw [List.pairwise_map] at hsorted ⊢
  refine hsorted.imp_of_mem ?_
  intro v w hv hw hvw
  rw [(hat v (hsp.mem_iff.mp hv)).least_eq, (hat w (hsp.mem_iff.mp hw)).least_eq]
  exact hvw

end CudaqQec.Placed
