import Mathlib.Algebra.BigOperators.Group.Finset.Basic
import Mathlib.Algebra.BigOperators.Group.Finset.Piecewise

/-!
# Sorted maps

A map as the list of its entries, by increasing key, and the grouping of a list by a key: each item
starts the entry of its key or is merged into it. What a group comes to depends on the items of its key
alone, in the order of the list (`lookup_group`), so a product over all items is one over the groups
(`prod_group`).
-/

namespace CudaqQec.SortedMap

variable {α β ι : Type} [LinearOrder α]

/-! ## Entries -/

def Sorted (m : List (α × β)) : Prop := (m.map Prod.fst).Pairwise (· < ·)

@[grind =] def upsert (k : α) (new : β) (f : β → β) : List (α × β) → List (α × β)
  | [] => [(k, new)]
  | (k', v) :: m =>
    if k < k' then (k, new) :: (k', v) :: m
    else if k = k' then (k', f v) :: m
    else (k', v) :: upsert k new f m

variable {k k' : α} {new : β} {f : β → β} {m : List (α × β)}

theorem mem_keys_upsert :
    k' ∈ (upsert k new f m).map Prod.fst ↔ k' = k ∨ k' ∈ m.map Prod.fst := by
  induction m with
  | nil => simp [upsert]
  | cons e m ih =>
    obtain ⟨k₁, v⟩ := e
    unfold upsert
    split
    · simp
    · split
      · next heq =>
        subst heq
        simp
      · simp only [List.map_cons, List.mem_cons, ih]
        tauto

theorem Sorted.upsert (h : Sorted m) : Sorted (upsert k new f m) := by
  induction m with
  | nil => simp [Sorted, SortedMap.upsert]
  | cons e m ih =>
    obtain ⟨k₁, v⟩ := e
    have hcons := List.pairwise_cons.mp h
    unfold SortedMap.upsert
    split
    · next hlt =>
      refine List.pairwise_cons.mpr ⟨fun k₂ hk₂ => ?_, h⟩
      rcases List.mem_cons.mp hk₂ with rfl | hk₂
      · exact hlt
      · exact hlt.trans (hcons.1 k₂ hk₂)
    · next hge =>
      split
      · exact h
      · next hne =>
        refine List.pairwise_cons.mpr ⟨fun k₂ hk₂ => ?_, ih hcons.2⟩
        rcases mem_keys_upsert.mp hk₂ with rfl | hk₂
        · exact lt_of_le_of_ne (not_lt.mp hge) (Ne.symm hne)
        · exact hcons.1 k₂ hk₂

theorem lookup_eq_none_of_lt (h : ∀ k' ∈ m.map Prod.fst, k < k') : m.lookup k = none := by
  induction m with
  | nil => rfl
  | cons e m ih =>
    obtain ⟨k₁, v⟩ := e
    have hne : (k == k₁) = false := beq_false_of_ne (h k₁ (by simp)).ne
    rw [List.lookup_cons, hne]
    exact ih fun k' hk' => h k' (by simp [hk'])

theorem lookup_upsert_self (h : Sorted m) :
    (upsert k new f m).lookup k = some ((m.lookup k).elim new f) := by
  induction m with
  | nil => simp [upsert]
  | cons e m ih =>
    obtain ⟨k₁, v⟩ := e
    have hcons := List.pairwise_cons.mp h
    unfold upsert
    split
    · next hlt =>
      have hnone : ((k₁, v) :: m).lookup k = none := by
        apply lookup_eq_none_of_lt
        intro k₂ hk₂
        rcases List.mem_cons.mp hk₂ with rfl | hk₂
        · exact hlt
        · exact hlt.trans (hcons.1 k₂ hk₂)
      rw [hnone, List.lookup_cons, beq_self_eq_true]
      rfl
    · split
      · next heq =>
        subst heq
        simp
      · next hne =>
        rw [List.lookup_cons, List.lookup_cons, beq_false_of_ne hne]
        exact ih hcons.2

theorem lookup_upsert_of_ne (h : k' ≠ k) : (upsert k new f m).lookup k' = m.lookup k' := by
  induction m with
  | nil => simp [upsert, h]
  | cons e m ih =>
    obtain ⟨k₁, v⟩ := e
    unfold upsert
    split
    · rw [List.lookup_cons, beq_false_of_ne h]
    · split
      · next heq =>
        subst heq
        rw [List.lookup_cons, List.lookup_cons, beq_false_of_ne h]
      · rw [List.lookup_cons, List.lookup_cons, ih]

theorem Sorted.mem_iff (h : Sorted m) {v : β} : (k, v) ∈ m ↔ m.lookup k = some v := by
  induction m with
  | nil => simp
  | cons e m ih =>
    obtain ⟨k₁, v₁⟩ := e
    have hcons := List.pairwise_cons.mp h
    rw [List.mem_cons, List.lookup_cons, ih hcons.2, Prod.mk.injEq]
    by_cases heq : k = k₁
    · subst heq
      rw [beq_self_eq_true, lookup_eq_none_of_lt hcons.1]
      simp [eq_comm]
    · rw [beq_false_of_ne heq]
      simp [heq]

/-! ## Groups -/

def group (key : ι → α) (new : ι → β) (f : ι → β → β) (items : List ι) : List (α × β) :=
  items.foldl (fun m i => upsert (key i) (new i) (f i) m) []

variable (key : ι → α) (start : ι → β) (merge : ι → β → β) (items : List ι)

theorem group_concat (i : ι) :
    group key start merge (items ++ [i]) =
      upsert (key i) (start i) (merge i) (group key start merge items) := by
  rw [group, List.foldl_append]
  rfl

theorem sorted_group : Sorted (group key start merge items) := by
  induction items using List.reverseRecOn with
  | nil => exact .nil
  | append_singleton items i ih =>
    rw [group_concat]
    exact ih.upsert

theorem mem_keys_group {k : α} :
    k ∈ (group key start merge items).map Prod.fst ↔ ∃ i ∈ items, key i = k := by
  induction items using List.reverseRecOn with
  | nil => simp [group]
  | append_singleton items i ih =>
    rw [group_concat, mem_keys_upsert, ih]
    constructor
    · rintro (rfl | ⟨j, hj, rfl⟩)
      · exact ⟨i, by simp, rfl⟩
      · exact ⟨j, by simp [hj], rfl⟩
    · rintro ⟨j, hj, rfl⟩
      rcases List.mem_append.mp hj with hj | hj
      · exact .inr ⟨j, hj, rfl⟩
      · rw [List.mem_singleton.mp hj]
        exact .inl rfl

/-- What the items of one key come to. -/
def fold : List ι → Option β
  | [] => none
  | i :: rest => some (rest.foldl (fun v j => merge j v) (start i))

theorem fold_concat (i : ι) :
    fold start merge (items ++ [i]) = some ((fold start merge items).elim (start i) (merge i)) := by
  cases items with
  | nil => rfl
  | cons j rest =>
    rw [List.cons_append]
    simp only [fold, List.foldl_append, List.foldl_cons, List.foldl_nil, Option.elim_some]

theorem lookup_group (k : α) :
    (group key start merge items).lookup k =
      fold start merge (items.filter fun i => key i = k) := by
  induction items using List.reverseRecOn with
  | nil => rfl
  | append_singleton items i ih =>
    rw [group_concat, List.filter_append]
    by_cases hk : key i = k
    · subst hk
      have hself : [i].filter (fun j => key j = key i) = [i] := by simp
      rw [lookup_upsert_self (sorted_group key start merge items), ih, hself, fold_concat]
    · have hother : [i].filter (fun j => key j = k) = [] := by simp [hk]
      rw [lookup_upsert_of_ne (Ne.symm hk), ih, hother, List.append_nil]

theorem group_of_pairwise (h : items.Pairwise fun i j => key i < key j) :
    group key start merge items = items.map fun i => (key i, start i) := by
  have hlast : ∀ (m : List (α × β)) (k : α) (new : β) (f : β → β), (∀ k' ∈ m.map Prod.fst, k' < k) →
      upsert k new f m = m ++ [(k, new)] := by
    intro m k new f hlt
    induction m with
    | nil => rfl
    | cons e m ih =>
      obtain ⟨k₁, v⟩ := e
      have hk₁ := hlt k₁ (by simp)
      unfold upsert
      rw [if_neg hk₁.not_gt, if_neg hk₁.ne', ih fun k' hk' => hlt k' (by simp [hk'])]
      rfl
  induction items using List.reverseRecOn with
  | nil => rfl
  | append_singleton items i ih =>
    rw [List.pairwise_append] at h
    rw [group_concat, ih h.1, hlast, List.map_append]
    · rfl
    · intro k hk
      rw [List.map_map] at hk
      obtain ⟨j, hj, rfl⟩ := List.mem_map.mp hk
      exact h.2.2 j hj i (by simp)

theorem prod_by_key {M : Type} [CommMonoid M] (F : ι → M) {keys : List α} (hnodup : keys.Nodup)
    (hmem : ∀ i ∈ items, key i ∈ keys) :
    (items.map F).prod =
      (keys.map fun k => ((items.filter fun i => key i = k).map F).prod).prod := by
  induction items with
  | nil => simp
  | cons i items ih =>
    have hsplit : ∀ k, (((i :: items).filter fun j => key j = k).map F).prod =
        (if key i = k then F i else 1) * ((items.filter fun j => key j = k).map F).prod := by
      intro k
      by_cases hk : key i = k
      · simp [hk]
      · simp [hk]
    have hone : (keys.map fun k => if key i = k then F i else 1).prod = F i := by
      rw [← List.prod_toFinset _ hnodup, Finset.prod_ite_eq, if_pos]
      exact List.mem_toFinset.mpr (hmem i (by simp))
    rw [List.map_congr_left fun k _ => hsplit k, List.prod_map_mul, hone, List.map_cons,
      List.prod_cons, ih fun j hj => hmem j (by simp [hj])]

theorem prod_group {M : Type} [CommMonoid M] (F : ι → M) :
    (items.map F).prod = ((group key start merge items).map fun e =>
      ((items.filter fun i => key i = e.1).map F).prod).prod := by
  have hsorted := sorted_group key start merge items
  rw [prod_by_key key items F (hsorted.imp ne_of_lt) fun i hi =>
    (mem_keys_group key start merge items).mpr ⟨i, hi, rfl⟩, List.map_map]
  rfl

/-! ## Classes -/

def classes (key : ι → α) (items : List ι) : List (α × List ι) :=
  group key (fun i => [i]) (fun i part => part ++ [i]) items

variable {key} {items} {part : List ι}

theorem foldl_append_singleton (l acc : List ι) :
    l.foldl (fun part i => part ++ [i]) acc = acc ++ l := by
  induction l generalizing acc with
  | nil => rw [List.foldl_nil, List.append_nil]
  | cons i l ih => rw [List.foldl_cons, ih, List.append_assoc, List.singleton_append]

theorem mem_classes [DecidablePred fun i => key i = k] :
    (k, part) ∈ classes key items ↔ part ≠ [] ∧ part = items.filter fun i => key i = k := by
  have hfold : ∀ l : List ι, fold (fun i => [i]) (fun i part => part ++ [i]) l = some part ↔
      part ≠ [] ∧ part = l := by
    intro l
    cases l with
    | nil => simp [fold]
    | cons i rest =>
      rw [fold, foldl_append_singleton, Option.some.injEq, List.singleton_append, eq_comm]
      constructor
      · intro h
        exact ⟨by simp [h], h⟩
      · exact fun h => h.2
  rw [classes, (sorted_group key _ _ items).mem_iff, lookup_group, hfold]
  convert Iff.rfl

theorem upsert_append_perm (i : ι) (m : List (α × List ι)) :
    ((upsert k [i] (fun part => part ++ [i]) m).flatMap Prod.snd).Perm
      (m.flatMap Prod.snd ++ [i]) := by
  induction m with
  | nil => exact .refl _
  | cons e m ih =>
    obtain ⟨k₁, part⟩ := e
    unfold upsert
    split
    · exact (List.perm_append_singleton _ _).symm
    · split
      · simp only [List.flatMap_cons, List.append_assoc]
        exact (List.perm_append_comm).append_left part
      · simp only [List.flatMap_cons, List.append_assoc]
        exact ih.append_left part

/-- The entries share the items out. -/
theorem classes_perm (key : ι → α) (items : List ι) :
    ((classes key items).flatMap Prod.snd).Perm items := by
  induction items using List.reverseRecOn with
  | nil => exact .refl _
  | append_singleton items i ih =>
    rw [classes, group_concat]
    exact (upsert_append_perm i _).trans (ih.append_right [i])

end CudaqQec.SortedMap
