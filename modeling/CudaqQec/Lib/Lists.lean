import Mathlib.Data.List.Basic
import Mathlib.Data.List.Sort
import Mathlib.Order.MinMax
import Mathlib.Tactic.Tauto
import Mathlib.Algebra.GroupWithZero.Nat

/-!
# Lists

Arrays of the source are lists, read with `getD`: the first lemmas say what is read at a position of a
list that was put together from parts. A running minimum or maximum is a fold: the last ones say what
it is bounded by.
-/

namespace CudaqQec

variable {α : Type}

theorem getD_map_range (f : Nat → α) (n j : Nat) (d : α) :
    ((List.range n).map f).getD j d = if j < n then f j else d := by
  rw [List.getD_eq_getElem?_getD, List.getElem?_map]
  split
  · next h => simp [h]
  · next h => simp [h]

/-- A list read index by index. -/
theorem map_getD_range (l : List α) (d : α) : (List.range l.length).map (fun i => l.getD i d) = l := by
  apply List.ext_getElem (by simp)
  intro i hi hi'
  simp [List.getD_eq_getElem?_getD, hi']

theorem getD_append_ite (l l' : List α) (i : Nat) (d : α) :
    (l ++ l').getD i d = if i < l.length then l.getD i d else l'.getD (i - l.length) d := by
  rw [List.getD_eq_getElem?_getD, List.getElem?_append]
  split <;> simp [List.getD_eq_getElem?_getD]

theorem getD_replicate_self (n i : Nat) (d : α) : (List.replicate n d).getD i d = d := by
  rw [List.getD_eq_getElem?_getD, List.getElem?_replicate]
  split <;> rfl

theorem getD_of_length_le {l : List α} {i : Nat} (h : l.length ≤ i) (d : α) : l.getD i d = d := by
  rw [List.getD_eq_getElem?_getD, List.getElem?_eq_none h, Option.getD_none]

theorem getD_mem {l : List (List α)} {i : Nat} {x : α} (h : x ∈ l.getD i []) :
    l.getD i [] ∈ l := by
  rw [List.getD_eq_getElem?_getD] at h ⊢
  cases hi : l[i]? with
  | none => simp [hi] at h
  | some g => exact List.mem_of_getElem? hi

theorem getD_set (l : List α) (i j : Nat) (x d : α) :
    (l.set i x).getD j d = if i = j ∧ j < l.length then x else l.getD j d := by
  simp only [List.getD_eq_getElem?_getD, List.getElem?_set]
  by_cases hij : i = j
  · subst hij
    by_cases hi : i < l.length <;> simp [hi]
  · simp [hij]

/-! ## Splitting -/

/-- The parts between two separators hold what is not a separator. -/
theorem sum_count_splitOn [DecidableEq α] {sep x : α} (h : x ≠ sep) (l : List α) :
    ((l.splitOn sep).map (List.count x)).sum = l.count x := by
  unfold List.splitOn
  induction l with
  | nil => simp
  | cons y l ih =>
    rw [List.splitOnP_cons_eq_if_modifyHead]
    split
    next hy =>
      have hne : y ≠ x := by
        rintro rfl
        exact h (beq_iff_eq.mp hy)
      simp [ih, hne]
    next hy =>
      cases hsplit : l.splitOnP (· == sep) with
      | nil => exact absurd hsplit (List.splitOnP_ne_nil _ _)
      | cons part parts =>
        rw [hsplit, List.map_cons, List.sum_cons] at ih
        rw [List.modifyHead_cons, List.map_cons, List.sum_cons, List.count_cons, List.count_cons, ← ih]
        omega

/-! ## Order -/

section Stable
variable {r s : α → α → Prop} [DecidableRel r] [Std.Total r] [IsTrans α r]

/-- A sort keeps the order of elements that rank alike. -/
theorem pairwise_insertionSort_stable {l : List α} (h : l.Pairwise s) :
    (l.insertionSort r).Pairwise fun a b => r a b ∧ (r b a → s a b) := by
  have hinsert : ∀ (a : α) (m : List α), (m.Pairwise fun a b => r a b ∧ (r b a → s a b)) →
      (∀ b ∈ m, s a b) → (m.orderedInsert r a).Pairwise fun a b => r a b ∧ (r b a → s a b) := by
    intro a m hm ha
    induction m with
    | nil => exact List.pairwise_singleton _ _
    | cons b m ih =>
      obtain ⟨hb, hm'⟩ := List.pairwise_cons.mp hm
      rw [List.orderedInsert_cons]
      split
      · next hab =>
        refine List.pairwise_cons.mpr ⟨?_, hm⟩
        intro c hc
        refine ⟨?_, fun _ => ha c hc⟩
        rcases List.mem_cons.mp hc with rfl | hc
        · exact hab
        · exact IsTrans.trans a b c hab (hb c hc).1
      · next hab =>
        refine List.pairwise_cons.mpr ⟨?_, ih hm' fun c hc => ha c (List.mem_cons_of_mem _ hc)⟩
        intro c hc
        rcases (List.mem_orderedInsert r).mp hc with rfl | hc
        · exact ⟨(Std.Total.total b c).resolve_right hab, fun hcb => absurd hcb hab⟩
        · exact hb c hc
  induction l with
  | nil => exact .nil
  | cons a l ih =>
    obtain ⟨ha, hl⟩ := List.pairwise_cons.mp h
    rw [List.insertionSort_cons]
    exact hinsert a _ (ih hl) fun b hb => ha b ((List.mem_insertionSort r).mp hb)

end Stable

/-- A sort that leaves a list of distinct elements alone found its neighbours in order. -/
theorem isChain_of_insertionSort_eq_self {r : α → α → Prop} [DecidableRel r] {l : List α}
    (hn : l.Nodup) (h : l.insertionSort r = l) : l.IsChain r := by
  induction l with
  | nil => exact .nil
  | cons a l ih =>
    obtain ⟨ha, hn⟩ := List.nodup_cons.mp hn
    rw [List.insertionSort_cons] at h
    cases hm : l.insertionSort r with
    | nil =>
      obtain rfl : l = [] := by simpa [hm] using (List.perm_insertionSort r l).symm
      exact .singleton a
    | cons b m =>
      rw [hm, List.orderedInsert_cons] at h
      split at h
      · next hab =>
        obtain rfl : b :: m = l := (List.cons.inj h).2
        exact .cons_cons hab (ih hn hm)
      · obtain rfl : b = a := (List.cons.inj h).1
        exact absurd ((List.perm_insertionSort r l).mem_iff.mp (by simp [hm])) ha

/-- An increasing list has no more elements than there are numbers from its first to its last. -/
theorem head_add_length_le {l : List Nat} (h : l.Pairwise (· < ·)) (hne : l ≠ []) :
    l.headD 0 + l.length ≤ l.getLastD 0 + 1 := by
  induction l with
  | nil => exact absurd rfl hne
  | cons a l ih =>
    cases l with
    | nil => simp
    | cons b l =>
      obtain ⟨ha, hl⟩ := List.pairwise_cons.mp h
      have := ih hl (by simp)
      have := ha b (by simp)
      simp only [List.headD_cons, List.length_cons, List.getLastD_cons] at *
      omega

/-- An increasing list that fills the range from its first element to its last is that range. -/
theorem eq_range'_of_pairwise_lt {l : List Nat} (h : l.Pairwise (· < ·)) (hne : l ≠ [])
    (hlen : l.getLastD 0 + 1 = l.headD 0 + l.length) : l = List.range' (l.headD 0) l.length := by
  induction l with
  | nil => exact absurd rfl hne
  | cons a l ih =>
    cases l with
    | nil => rfl
    | cons b l =>
      obtain ⟨ha, hl⟩ := List.pairwise_cons.mp h
      have hb := ha b (by simp)
      have hle := head_add_length_le hl (by simp)
      simp only [List.headD_cons, List.length_cons, List.getLastD_cons] at hlen hle
      obtain rfl : b = a + 1 := by omega
      have hrest := ih hl (by simp) (by
        simp only [List.headD_cons, List.length_cons, List.getLastD_cons]
        omega)
      simp only [List.headD_cons, List.length_cons] at hrest
      rw [List.headD_cons, List.length_cons, List.range'_succ, List.length_cons, ← hrest]

theorem headD_mem {l : List Nat} (h : l ≠ []) : l.headD 0 ∈ l := by
  obtain ⟨a, m, rfl⟩ := List.exists_cons_of_ne_nil h
  simp

theorem getLastD_mem {l : List Nat} (h : l ≠ []) : l.getLastD 0 ∈ l := by
  rw [List.getLastD_eq_getLast?, List.getLast?_eq_getLast_of_ne_nil h]
  exact List.getLast_mem h

/-- An increasing list lies between its ends. -/
theorem headD_le_getLastD {l : List Nat} (h : l.Pairwise (· < ·)) {r : Nat} (hr : r ∈ l) :
    l.headD 0 ≤ r ∧ r ≤ l.getLastD 0 := by
  induction l generalizing r with
  | nil => simp at hr
  | cons a l ih =>
    obtain ⟨ha, hl⟩ := List.pairwise_cons.mp h
    cases l with
    | nil =>
      obtain rfl : r = a := by simpa using hr
      simp
    | cons b l =>
      have hlast := ih hl (by simp : b ∈ b :: l)
      have hab := ha b (by simp)
      simp only [List.headD_cons, List.getLastD_cons] at hlast ⊢
      rcases List.mem_cons.mp hr with rfl | hr
      · omega
      · have := ih hl hr
        have := ha r hr
        simp only [List.headD_cons, List.getLastD_cons] at *
        omega

/-- What holds up to some number and no further is kept up to that number. -/
theorem filter_range_of_downward {p : Nat → Bool} {n : Nat}
    (h : ∀ i j, i ≤ j → j < n → p j = true → p i = true) :
    (List.range n).filter p = List.range ((List.range n).countP p) := by
  induction n with
  | zero => rfl
  | succ n ih =>
    have ih := ih fun i j hij hj => h i j hij (by omega)
    rw [List.range_succ, List.filter_append, List.countP_append, ih]
    by_cases hp : p n = true
    · have hall : (List.range n).countP p = n := by
        have hlen : (List.range n).countP p = (List.range n).length := by
          rw [List.countP_eq_length]
          intro i hi
          have hi := List.mem_range.mp hi
          exact h i n hi.le (Nat.lt_succ_self n) hp
        rwa [List.length_range] at hlen
      simp [hp, hall, List.range_succ]
    · simp [hp]

theorem lt_countP_range_iff {p : Nat → Bool} {n c : Nat}
    (h : ∀ i j, i ≤ j → j < n → p j = true → p i = true) (hc : c < n) :
    c < (List.range n).countP p ↔ p c = true := by
  have hmem : c ∈ (List.range n).filter p ↔ c ∈ List.range ((List.range n).countP p) := by
    rw [filter_range_of_downward h]
  rw [List.mem_filter, List.mem_range, List.mem_range, and_iff_right hc] at hmem
  exact hmem.symm

/-! ## Least and greatest -/

section
variable [LinearOrder α]

theorem le_foldl_min_iff {l : List α} {x b : α} : b ≤ l.foldl min x ↔ b ≤ x ∧ ∀ a ∈ l, b ≤ a := by
  induction l generalizing x with
  | nil => simp
  | cons a l ih =>
    rw [List.foldl_cons, ih, le_min_iff, List.forall_mem_cons]
    tauto

theorem foldl_min_le {l : List α} {x : α} : l.foldl min x ≤ x ∧ ∀ a ∈ l, l.foldl min x ≤ a :=
  le_foldl_min_iff.mp (le_refl _)

theorem foldl_max_le_iff {l : List α} {x b : α} : l.foldl max x ≤ b ↔ x ≤ b ∧ ∀ a ∈ l, a ≤ b := by
  induction l generalizing x with
  | nil => simp
  | cons a l ih =>
    rw [List.foldl_cons, ih, max_le_iff, List.forall_mem_cons]
    tauto

theorem le_foldl_max {l : List α} {x : α} : x ≤ l.foldl max x ∧ ∀ a ∈ l, a ≤ l.foldl max x :=
  foldl_max_le_iff.mp (le_refl _)

end

/-- A running sum holds the sum of what comes before. -/
theorem getD_scanl_add (widths : List Nat) {i : Nat} (a : Nat) (h : i ≤ widths.length) :
    (widths.scanl (· + ·) a).getD i 0 = a + (widths.take i).sum := by
  induction widths generalizing a i with
  | nil =>
    obtain rfl : i = 0 := by simpa using h
    simp
  | cons w widths ih =>
    cases i with
    | zero => simp
    | succ i =>
      rw [List.scanl_cons, List.getD_cons_succ, ih (a + w) (by simpa using h), List.take_succ_cons,
        List.sum_cons]
      omega

end CudaqQec
