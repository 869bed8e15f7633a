import CudaqQec.Lib.Lists
import Mathlib.Algebra.BigOperators.Group.List.Lemmas
import Mathlib.Algebra.Order.BigOperators.Group.List
import Mathlib.Algebra.GroupWithZero.Nat

/-!
# Counting sort by buckets

Entries with a key below `n` are sorted by key, those with one key in the order they come. A counting
sort counts the entries of each key, sums the counts to where each bucket starts, and writes every
entry to the next free place of its bucket. Between two writes the output holds each bucket filled
from the front (`filled`), and one write fills one place more (`filled_append`).
-/

namespace CudaqQec.Buckets

variable {α : Type}

/-! ## Positions in concatenated lists -/

def start (ls : List (List α)) (j : Nat) : Nat := ((ls.take j).map List.length).sum

theorem start_cons (l : List α) (ls : List (List α)) (j : Nat) :
    start (l :: ls) (j + 1) = l.length + start ls j := by
  simp [start]

theorem start_eq_length_flatten (ls : List (List α)) (j : Nat) :
    start ls j = (ls.take j).flatten.length := by
  rw [start, List.length_flatten]

/-- Writing into the concatenation writes into one of the lists. -/
theorem flatten_set (ls : List (List α)) {j k : Nat} (hj : j < ls.length)
    (hk : k < (ls.getD j []).length) (x : α) :
    ls.flatten.set (start ls j + k) x = (ls.set j ((ls.getD j []).set k x)).flatten := by
  induction ls generalizing j with
  | nil => simp at hj
  | cons l ls ih =>
    cases j with
    | zero =>
      simp only [List.getD_cons_zero] at hk
      simp only [List.flatten_cons, start, List.take_zero, List.map_nil, List.sum_nil, Nat.zero_add,
        List.getD_cons_zero, List.set_cons_zero]
      exact List.set_append_left _ _ hk
    | succ j =>
      simp only [List.getD_cons_succ] at hk
      have hrest := ih (by simpa using hj) hk
      simp only [List.flatten_cons, start_cons, List.getD_cons_succ, List.set_cons_succ]
      rw [List.set_append_right _ _ (by omega), ← hrest]
      congr 2
      omega

theorem start_add_lt_length_flatten (ls : List (List α)) {j k : Nat} (hj : j < ls.length)
    (hk : k < (ls.getD j []).length) : start ls j + k < ls.flatten.length := by
  induction ls generalizing j with
  | nil => simp at hj
  | cons l ls ih =>
    rw [List.flatten_cons, List.length_append]
    cases j with
    | zero =>
      simp only [List.getD_cons_zero] at hk
      simp only [start, List.take_zero, List.map_nil, List.sum_nil]
      omega
    | succ j =>
      simp only [List.getD_cons_succ] at hk
      have := ih (by simpa using hj) hk
      rw [start_cons]
      omega

/-- Reading the concatenation reads one of the lists. -/
theorem getElem?_flatten_start (ls : List (List α)) {j k : Nat} (hk : k < (ls.getD j []).length) :
    ls.flatten[start ls j + k]? = (ls.getD j [])[k]? := by
  induction ls generalizing j with
  | nil => simp at hk
  | cons l ls ih =>
    cases j with
    | zero =>
      simp only [List.getD_cons_zero] at hk ⊢
      simp only [start, List.take_zero, List.map_nil, List.sum_nil, Nat.zero_add, List.flatten_cons]
      exact List.getElem?_append_left hk
    | succ j =>
      simp only [List.getD_cons_succ] at hk ⊢
      rw [start_cons, List.flatten_cons, List.getElem?_append_right (by omega), ← ih hk]
      congr 1
      omega

theorem start_succ (ls : List (List α)) {j : Nat} (hj : j < ls.length) :
    start ls (j + 1) = start ls j + (ls.getD j []).length := by
  induction ls generalizing j with
  | nil => simp at hj
  | cons l ls ih =>
    cases j with
    | zero => simp [start]
    | succ j =>
      have hrest := ih (by simpa using hj)
      rw [start_cons, hrest, start_cons, List.getD_cons_succ, Nat.add_assoc]

theorem start_le (ls : List (List α)) (j : Nat) : start ls j ≤ ls.flatten.length := by
  rw [start_eq_length_flatten]
  exact (List.Sublist.flatten (List.take_sublist j ls)).length_le

/-- One of the lists, cut out of the concatenation. -/
theorem drop_take_flatten (ls : List (List α)) {j : Nat} (hj : j < ls.length) :
    (ls.flatten.take (start ls (j + 1))).drop (start ls j) = ls.getD j [] := by
  induction ls generalizing j with
  | nil => simp at hj
  | cons l ls ih =>
    cases j with
    | zero => simp [start]
    | succ j =>
      have hrest := ih (by simpa using hj)
      rw [start_cons, start_cons, List.flatten_cons, List.take_length_add_append,
        List.drop_length_add_append, List.getD_cons_succ, hrest]

/-! ## Buckets -/

def bucket (es : List (Nat × α)) (j : Nat) : List α := (es.filter fun e => e.1 = j).map Prod.snd

def buckets (n : Nat) (es : List (Nat × α)) : List (List α) := (List.range n).map (bucket es)

@[simp] theorem bucket_nil (j : Nat) : bucket ([] : List (Nat × α)) j = [] := rfl

theorem bucket_append (es es' : List (Nat × α)) (j : Nat) :
    bucket (es ++ es') j = bucket es j ++ bucket es' j := by
  simp [bucket]

theorem bucket_singleton (e : Nat × α) (j : Nat) :
    bucket [e] j = if e.1 = j then [e.2] else [] := by
  by_cases h : e.1 = j <;> simp [bucket, h]

@[simp] theorem length_buckets (n : Nat) (es : List (Nat × α)) : (buckets n es).length = n := by
  simp [buckets]

theorem getD_buckets {n : Nat} (es : List (Nat × α)) {j : Nat} (hj : j < n) :
    (buckets n es).getD j [] = bucket es j := by
  rw [buckets, getD_map_range, if_pos hj]

theorem count_bucket [DecidableEq α] (es : List (Nat × α)) (j : Nat) (v : α) :
    (bucket es j).count v = es.count (j, v) := by
  induction es with
  | nil => rfl
  | cons e es ih =>
    have hcons : bucket (e :: es) j = bucket [e] j ++ bucket es j := bucket_append [e] es j
    rw [hcons, List.count_append, ih, List.count_cons, bucket_singleton, Nat.add_comm]
    congr 1
    by_cases h : e.1 = j
    · rw [if_pos h, List.count_singleton]
      simp [Prod.ext_iff, h]
    · rw [if_neg h]
      simp [Prod.ext_iff, h]

/-- One entry more is one entry more in its bucket. -/
theorem buckets_append_singleton (n : Nat) (es : List (Nat × α)) (e : Nat × α) :
    buckets n (es ++ [e]) = (buckets n es).modify e.1 (· ++ [e.2]) := by
  apply List.ext_getElem (by simp)
  intro j hj _
  rw [List.getElem_modify]
  simp only [buckets, List.getElem_map, List.getElem_range, bucket_append, bucket_singleton]
  split <;> simp

theorem map_length_buckets_append (n : Nat) (es : List (Nat × α)) {e : Nat × α} :
    (buckets n (es ++ [e])).map List.length =
      ((buckets n es).map List.length).set e.1 ((bucket es e.1).length + 1) := by
  apply List.ext_getElem (by simp)
  intro j hj _
  rw [List.getElem_set]
  simp only [buckets, List.getElem_map, List.getElem_range, bucket_append, bucket_singleton]
  split
  · next h => simp [h]
  · simp

theorem length_bucket_le (es : List (Nat × α)) (j : Nat) : (bucket es j).length ≤ es.length := by
  rw [bucket, List.length_map]
  exact List.length_filter_le _ _

theorem nodup_bucket {es : List (Nat × α)} (h : es.Nodup) (j : Nat) : (bucket es j).Nodup := by
  apply List.Nodup.map_on _ (h.filter _)
  intro x hx y hy hxy
  have hx' : x.1 = j := by simpa using (List.mem_filter.mp hx).2
  have hy' : y.1 = j := by simpa using (List.mem_filter.mp hy).2
  exact Prod.ext (hx'.trans hy'.symm) hxy

/-- No entry is lost. -/
theorem length_flatten_buckets {n : Nat} {es : List (Nat × α)} (h : ∀ e ∈ es, e.1 < n) :
    (buckets n es).flatten.length = es.length := by
  induction es with
  | nil =>
    rw [List.length_flatten]
    simp [buckets, Function.comp_def, bucket_nil]
  | cons e es ih =>
    have hone : ((List.range n).map fun j => if e.1 = j then 1 else 0).sum = 1 := by
      have hsum : ((List.range n).map fun j => if e.1 = j then 1 else 0).sum =
          ((List.range n).count e.1) := by
        induction List.range n with
        | nil => rfl
        | cons i l ihl =>
          rw [List.map_cons, List.sum_cons, ihl, List.count_cons]
          by_cases hi : e.1 = i
          · simp [hi, Nat.add_comm]
          · simp [hi, Ne.symm hi]
      rw [hsum, List.count_eq_one_of_mem List.nodup_range
        (List.mem_range.mpr (h e (by simp)))]
    have hsplit : (buckets n (e :: es)).flatten.length =
        (buckets n [e]).flatten.length + (buckets n es).flatten.length := by
      simp only [buckets, List.length_flatten, List.map_map, ← List.sum_map_add]
      congr 1
      apply List.map_congr_left
      intro j _
      have hcons : bucket (e :: es) j = bucket [e] j ++ bucket es j := bucket_append [e] es j
      simp [Function.comp, hcons]
    have hsingle : (buckets n [e]).flatten.length = 1 := by
      rw [buckets, List.length_flatten, List.map_map, ← hone]
      congr 1
      apply List.map_congr_left
      intro j _
      simp only [Function.comp, bucket_singleton]
      split <;> rfl
    rw [hsplit, hsingle, ih fun e he => h e (by simp [he]), List.length_cons, Nat.add_comm]

/-! ## Filling the buckets -/

/-- The buckets of `es`, filled with the entries of a first part `done`; `pad` stands in the places
that are still free. -/
def filled (pad : α) (n : Nat) (done es : List (Nat × α)) : List (List α) :=
  (List.range n).map fun j => bucket done j ++
    List.replicate ((bucket es j).length - (bucket done j).length) pad

variable {pad : α} {n : Nat} {done rest es : List (Nat × α)} {e : Nat × α}

theorem filled_nil : (filled pad n [] es).flatten =
    List.replicate (buckets n es).flatten.length pad := by
  have hflat : ∀ ls : List (List α), (ls.map fun l => List.replicate l.length pad).flatten =
      List.replicate ls.flatten.length pad := by
    intro ls
    induction ls with
    | nil => rfl
    | cons l ls ih =>
      rw [List.map_cons, List.flatten_cons, ih, List.flatten_cons, List.length_append,
        List.replicate_add]
  rw [← hflat, buckets, List.map_map]
  rfl

theorem filled_all : filled pad n es es = buckets n es := by
  simp [filled, buckets]

theorem length_filled_bucket (j : Nat) :
    (bucket done j).length ≤ (bucket (done ++ rest) j).length := by
  rw [bucket_append, List.length_append]
  omega

/-- Every bucket is as long as when it is full. -/
theorem start_filled (h : es = done ++ rest) (j : Nat) :
    start (filled pad n done es) j = start (buckets n es) j := by
  unfold start filled buckets
  rw [← List.map_take, ← List.map_take, List.map_map, List.map_map]
  congr 1
  apply List.map_congr_left
  intro i _
  have hle : (bucket done i).length ≤ (bucket es i).length := by
    rw [h]
    exact length_filled_bucket i
  simp only [Function.comp, List.length_append, List.length_replicate]
  omega

theorem length_flatten_filled (h : es = done ++ rest) :
    (filled pad n done es).flatten.length = (buckets n es).flatten.length := by
  have hstart : start (filled pad n done es) n = start (buckets n es) n := start_filled h n
  rw [start_eq_length_flatten, start_eq_length_flatten, List.take_of_length_le (by simp [filled]),
    List.take_of_length_le (by simp)] at hstart
  exact hstart

/-- Writing the next entry to the first free place of its bucket. -/
theorem filled_append (h : es = done ++ e :: rest) (he : e.1 < n) :
    (filled pad n done es).flatten.set
        (start (buckets n es) e.1 + (bucket done e.1).length) e.2 =
      (filled pad n (done ++ [e]) es).flatten ∧
    start (buckets n es) e.1 + (bucket done e.1).length <
      (filled pad n done es).flatten.length := by
  have hlen : e.1 < (filled pad n done es).length := by simpa [filled] using he
  have hget : (filled pad n done es).getD e.1 [] = bucket done e.1 ++
      List.replicate ((bucket es e.1).length - (bucket done e.1).length) pad := by
    rw [filled, getD_map_range, if_pos he]
  have hes : ∀ j, bucket es j = bucket done j ++ (bucket [e] j ++ bucket rest j) := by
    intro j
    rw [h, bucket_append]
    congr 1
    exact bucket_append [e] rest j
  -- the entry is in its own bucket, so a place is still free there
  have hroom : (bucket done e.1).length < (bucket es e.1).length := by
    rw [hes, bucket_singleton, if_pos rfl]
    simp
  have hk : (bucket done e.1).length < ((filled pad n done es).getD e.1 []).length := by
    rw [hget, List.length_append, List.length_replicate]
    omega
  have hstart : start (filled pad n done es) e.1 = start (buckets n es) e.1 := start_filled h e.1
  rw [← hstart]
  refine ⟨?_, start_add_lt_length_flatten _ hlen hk⟩
  rw [flatten_set _ hlen hk, hget]
  congr 1
  apply List.ext_getElem (by simp [filled])
  intro j hj _
  rw [List.getElem_set]
  simp only [filled, List.getElem_map, List.getElem_range]
  -- its bucket gains the entry, every other stays
  by_cases hje : e.1 = j
  · subst hje
    obtain ⟨m, hm⟩ : ∃ m, (bucket es e.1).length - (bucket done e.1).length = m + 1 :=
      ⟨(bucket es e.1).length - (bucket done e.1).length - 1, by omega⟩
    have hm' : (bucket es e.1).length - (bucket (done ++ [e]) e.1).length = m := by
      rw [bucket_append, bucket_singleton, if_pos rfl, List.length_append, List.length_singleton]
      omega
    rw [if_pos rfl, hm, hm', bucket_append, bucket_singleton, if_pos rfl,
      List.set_append_right _ _ le_rfl, Nat.sub_self, List.replicate_succ, List.set_cons_zero,
      List.append_assoc]
    rfl
  · rw [if_neg hje, bucket_append, bucket_singleton, if_neg hje, List.append_nil]

end CudaqQec.Buckets
