import Mathlib.Data.List.Basic
import Mathlib.Data.List.Induction
import Mathlib.Order.Basic
import Mathlib.Order.Lattice

/-!
# Runs of equal keys

One pass over entries of a key and a value that merges an entry into the one before it where the keys
are equal. The pass looks at neighbours only, so it merges all entries of a key exactly when they stand
next to each other, as they do in a list that is sorted by something the key determines and is
determined by.

* `merged_foldl`: what the pass leaves of a sorted list.
-/

namespace CudaqQec.Runs

variable {K V : Type} [DecidableEq K] (op : V → V → V)

/-- One entry. The merged entries are kept last first. -/
def push (acc : List (K × V)) (e : K × V) : List (K × V) :=
  match acc with
  | [] => [e]
  | last :: rest => if last.1 = e.1 then (last.1, op last.2 e.2) :: rest else e :: last :: rest

def valuesOf (entries : List (K × V)) (k : K) : List V :=
  (entries.filter fun e => e.1 = k).map Prod.snd

/-! ## The values of a key -/

theorem valuesOf_concat_self (entries : List (K × V)) (e : K × V) :
    valuesOf (entries ++ [e]) e.1 = valuesOf entries e.1 ++ [e.2] := by
  simp [valuesOf, List.filter_append]

theorem valuesOf_concat_of_ne (entries : List (K × V)) {e : K × V} {k : K} (h : k ≠ e.1) :
    valuesOf (entries ++ [e]) k = valuesOf entries k := by
  have : ¬ e.1 = k := fun heq => h heq.symm
  simp [valuesOf, List.filter_append, this]

theorem valuesOf_eq_nil {entries : List (K × V)} {k : K} (h : k ∉ entries.map Prod.fst) :
    valuesOf entries k = [] := by
  rw [valuesOf, List.map_eq_nil_iff, List.filter_eq_nil_iff]
  intro e he hk
  exact h (List.mem_map.mpr ⟨e, he, by simpa using hk⟩)

/-! ## What is merged -/

/-- Each key of `done` once, the last one first, with all its values combined. -/
structure Merged (zero : V) (done acc : List (K × V)) : Prop where
  nodup : (acc.map Prod.fst).Nodup
  keys : ∀ k, k ∈ acc.map Prod.fst ↔ k ∈ done.map Prod.fst
  values : ∀ e ∈ acc, e.2 = (valuesOf done e.1).foldl op zero
  head : (acc.head?.map Prod.fst) = done.getLast?.map Prod.fst

variable {op} {zero : V} {done acc : List (K × V)} {e : K × V}

theorem merged_nil : Merged op zero ([] : List (K × V)) [] :=
  ⟨by simp, by simp, by simp, rfl⟩

/-- An entry whose key is the last one, or new. -/
theorem Merged.push (hzero : ∀ v, op zero v = v) (h : Merged op zero done acc)
    (hkey : e.1 ∈ done.map Prod.fst → done.getLast?.map Prod.fst = some e.1) :
    Merged op zero (done ++ [e]) (push op acc e) := by
  have hlast : (done ++ [e]).getLast?.map Prod.fst = some e.1 := by simp
  by_cases hmem : e.1 ∈ done.map Prod.fst
  · -- The key is that of the last entry, into which the value goes.
    have hhead := h.head.trans (hkey hmem)
    obtain ⟨last, rest, rfl⟩ : ∃ last rest, acc = last :: rest := by
      cases acc with
      | nil => simp at hhead
      | cons last rest => exact ⟨last, rest, rfl⟩
    have heq : last.1 = e.1 := by simpa using hhead
    have hpush : Runs.push op (last :: rest) e = (last.1, op last.2 e.2) :: rest := if_pos heq
    rw [hpush]
    refine ⟨h.nodup, ?_, ?_, ?_⟩
    · intro k
      have := h.keys k
      simp only [List.map_cons, List.map_append, List.map_nil, List.mem_append,
        List.mem_singleton] at this ⊢
      rw [this]
      constructor
      · exact Or.inl
      · rintro (hk | rfl)
        · exact hk
        · exact hmem
    · intro e' he'
      rcases List.mem_cons.mp he' with rfl | he'
      · rw [heq, valuesOf_concat_self, List.foldl_append]
        have := h.values last (by simp)
        rw [heq] at this
        rw [← this]
        rfl
      · have hne : e'.1 ≠ e.1 := by
          intro hcon
          have hnd := h.nodup
          rw [List.map_cons, List.nodup_cons, heq, ← hcon] at hnd
          exact hnd.1 (List.mem_map_of_mem he')
        rw [valuesOf_concat_of_ne _ hne]
        exact h.values e' (by simp [he'])
    · rw [hlast, ← heq]
      rfl
  -- A new key begins an entry of its own.
  · have hnew : e.1 ∉ acc.map Prod.fst := by
      rw [h.keys]
      exact hmem
    have hpush : Runs.push op acc e = e :: acc := by
      cases acc with
      | nil => rfl
      | cons last rest =>
        apply if_neg
        rintro heq
        exact hnew (by simp [← heq])
    rw [hpush]
    refine ⟨?_, ?_, ?_, ?_⟩
    · rw [List.map_cons, List.nodup_cons]
      exact ⟨hnew, h.nodup⟩
    · intro k
      have := h.keys k
      simp only [List.map_cons, List.map_append, List.map_nil, List.mem_append, List.mem_cons,
        List.not_mem_nil, or_false, this]
      tauto
    · intro e' he'
      rcases List.mem_cons.mp he' with rfl | he'
      · rw [valuesOf_concat_self, valuesOf_eq_nil hmem]
        exact (hzero _).symm
      · have hne : e'.1 ≠ e.1 := by
          intro hcon
          exact hnew (hcon ▸ List.mem_map_of_mem he')
        rw [valuesOf_concat_of_ne _ hne]
        exact h.values e' he'
    · rw [hlast]
      rfl

/-- Entries sorted by a rank that tells keys apart. -/
theorem merged_foldl {O : Type} [LinearOrder O] {rank : K → O} (hrank : rank.Injective)
    (hzero : ∀ v, op zero v = v) (entries : List (K × V))
    (h : entries.Pairwise fun e e' => rank e.1 ≤ rank e'.1) :
    Merged op zero entries (entries.foldl (push op) []) := by
  induction entries using List.reverseRecOn with
  | nil => exact merged_nil
  | append_singleton entries e ih =>
    rw [List.pairwise_append] at h
    obtain ⟨hpre, -, hle⟩ := h
    rw [List.foldl_append, List.foldl_cons, List.foldl_nil]
    apply (ih hpre).push hzero
    intro hmem
    obtain ⟨e', he', heq⟩ := List.mem_map.mp hmem
    obtain ⟨front, last, rfl⟩ : ∃ front last, entries = front ++ [last] := by
      rcases List.eq_nil_or_concat entries with rfl | ⟨front, last, rfl⟩
      · cases he'
      · exact ⟨front, last, List.concat_eq_append⟩
    -- The last key lies between two occurrences of the key.
    have hlast : rank last.1 ≤ rank e.1 := hle last (by simp) e (by simp)
    have hge : rank e.1 ≤ rank last.1 := by
      rw [← heq]
      rcases List.mem_append.mp he' with hf | hl
      · exact (List.pairwise_append.mp hpre).2.2 e' hf last (by simp)
      · rw [List.mem_singleton.mp hl]
    have : last.1 = e.1 := hrank (le_antisymm hlast hge)
    simp [this]

end CudaqQec.Runs
