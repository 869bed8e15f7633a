import Mathlib.Data.List.Basic
import Mathlib.Data.List.Nodup
import Mathlib.Data.List.Perm.Basic
import Mathlib.Logic.Function.Basic

/-!
# Tables with home cells

A table of reusable cells for items with growing keys. The home of key `k` is cell `k % home`; a key
whose home is taken goes to any free cell and is *displaced*, and the table grows when there is none.
A list of the used cells is kept beside them, from which a cell is removed by moving the last one to
its place. A lookup reads the home, and scans the list only while some key is displaced.

* `HomeTable.Valid`: the list, the cells and the count of displaced keys agree.
* `Valid.find_cases`: a lookup finds the one cell that holds a key.
* `Valid.claim`, `Valid.release`, `Valid.write`: the operations keep the table valid.
* `Valid.has_claim`, `Valid.has_release`, `Valid.has_write_self`: what they leave where.
-/

namespace CudaqQec

/-! ## Removing by moving the last element -/

def swapRemove (l : List Nat) (p : Nat) : List Nat := (l.set p (l.getLastD 0)).dropLast

theorem perm_swapRemove {l : List Nat} {p x : Nat} (h : l[p]? = some x) :
    l.Perm (x :: swapRemove l p) := by
  rcases List.eq_nil_or_concat l with rfl | ⟨init, last, hl⟩
  · simp at h
  · rw [List.concat_eq_append] at hl
    subst hl
    obtain ⟨hp, hx⟩ := List.getElem?_eq_some_iff.mp h
    rw [List.length_append, List.length_singleton] at hp
    rcases Nat.lt_or_ge p init.length with hlt | hge
    · have hxi : init[p] = x := by rwa [List.getElem_append_left hlt] at hx
      have hset : swapRemove (init ++ [last]) p = init.set p last := by
        rw [swapRemove, List.getLastD_concat, List.set_append_left _ _ hlt, List.dropLast_concat]
      rw [hset]
      have hinit : init.Perm (x :: init.eraseIdx p) := by
        rw [← hxi]
        exact (List.getElem_cons_eraseIdx_perm hlt).symm
      have hlast : (init.set p last).Perm (last :: init.eraseIdx p) :=
        List.set_perm_cons_eraseIdx hlt last
      have hmoved : (init ++ [last]).Perm (last :: x :: init.eraseIdx p) :=
        (List.perm_append_singleton last init).trans (hinit.cons last)
      exact (hmoved.trans (List.Perm.swap x last _)).trans (hlast.symm.cons x)
    · obtain rfl : p = init.length := by omega
      have hxl : last = x := by simpa using hx
      have hset : swapRemove (init ++ [last]) init.length = init := by
        rw [swapRemove, List.getLastD_concat, List.set_append_right _ _ (Nat.le_refl _),
          Nat.sub_self, List.set_cons_zero, List.dropLast_concat]
      rw [hset, hxl]
      exact List.perm_append_singleton x init

theorem getElem?_swapRemove {l : List Nat} {p q : Nat} (hq : q + 1 < l.length) :
    (swapRemove l p)[q]? = if q = p then some (l.getLastD 0) else l[q]? := by
  have hlt : q < ((l.set p (l.getLastD 0)).dropLast).length := by simp; omega
  rw [swapRemove, List.getElem?_eq_getElem hlt, List.getElem_dropLast, List.getElem_set]
  by_cases h : q = p
  · rw [if_pos h, if_pos h.symm]
  · rw [if_neg h, if_neg (fun he => h he.symm), List.getElem?_eq_getElem (by omega)]

/-! ## Cells -/

/-- A cell: what it holds while it is used, and its place in the list of used cells. -/
structure Cell (β : Type) where
  key : Nat
  used : Bool
  displaced : Bool
  liveAt : Nat
  content : β

structure HomeTable (β : Type) where
  cells : Nat → Cell β
  size : Nat
  live : List Nat
  displaced : Nat
  home : Nat

namespace HomeTable

variable {β : Type} (t : HomeTable β)

def empty (n : Nat) (b : β) : HomeTable β where
  cells := fun _ => ⟨0, false, false, 0, b⟩
  size := n
  live := []
  displaced := 0
  home := n

def homeOf (k : Nat) : Nat := k % t.home

def find (k : Nat) : Nat :=
  if (t.cells (t.homeOf k)).used ∧ (t.cells (t.homeOf k)).key = k then t.homeOf k
  else if t.displaced = 0 then t.size
  else (t.live.find? fun i => (t.cells i).displaced ∧ (t.cells i).key = k).getD t.size

/-- The cell that a new key gets: its home, or the first free one, or one more. -/
def freeCell (k : Nat) : Nat :=
  if (t.cells (t.homeOf k)).used then
    ((List.range t.size).find? fun i => !(t.cells i).used).getD t.size
  else t.homeOf k

def claim (k : Nat) (b : β) : HomeTable β :=
  let i := t.freeCell k
  let displaced := decide (i ≠ t.homeOf k)
  { t with
    cells := Function.update t.cells i ⟨k, true, displaced, t.live.length, b⟩
    size := if i = t.size then t.size + 1 else t.size
    live := t.live ++ [i]
    displaced := t.displaced + displaced.toNat }

/-- The table with cell `i` free. -/
def release (i : Nat) : HomeTable β :=
  if (t.cells i).used then
    let place := (t.cells i).liveAt
    let moved := t.live.getLastD 0
    let cells := Function.update t.cells moved { t.cells moved with liveAt := place }
    { t with
      cells := Function.update cells i { cells i with displaced := false, used := false }
      live := swapRemove t.live place
      displaced := t.displaced - (t.cells i).displaced.toNat }
  else t

def write (i : Nat) (b : β) : HomeTable β :=
  { t with cells := Function.update t.cells i { t.cells i with content := b } }

def Has (k i : Nat) (b : β) : Prop := i ∈ t.live ∧ (t.cells i).key = k ∧ (t.cells i).content = b

structure Valid : Prop where
  home_pos : 0 < t.home
  home_le : t.home ≤ t.size
  nodup : t.live.Nodup
  mem_live : ∀ i, i ∈ t.live ↔ i < t.size ∧ (t.cells i).used = true
  liveAt : ∀ i ∈ t.live, t.live[(t.cells i).liveAt]? = some i
  displaced_eq : ∀ i ∈ t.live, (t.cells i).displaced = decide (i ≠ t.homeOf (t.cells i).key)
  count : t.displaced = t.live.countP fun i => (t.cells i).displaced
  key_inj : ∀ i ∈ t.live, ∀ j ∈ t.live, (t.cells i).key = (t.cells j).key → i = j

variable {t} {k l i j : Nat} {b c : β}

theorem valid_empty (n : Nat) (hn : 0 < n) (b : β) : (empty n b).Valid where
  home_pos := hn
  home_le := Nat.le_refl n
  nodup := List.nodup_nil
  mem_live := by simp [empty]
  liveAt := by simp [empty]
  displaced_eq := by simp [empty]
  count := rfl
  key_inj := by simp [empty]

namespace Valid

theorem homeOf_lt (hv : t.Valid) (k : Nat) : t.homeOf k < t.size :=
  Nat.lt_of_lt_of_le (Nat.mod_lt k hv.home_pos) hv.home_le

theorem has_unique (hv : t.Valid) (hi : t.Has k i b) (hj : t.Has k j c) : i = j ∧ b = c := by
  have he : i = j := hv.key_inj i hi.1 j hj.1 (hi.2.1.trans hj.2.1.symm)
  subst he
  exact ⟨rfl, hi.2.2.symm.trans hj.2.2⟩

theorem lt_of_has (hv : t.Valid) (hi : t.Has k i b) : i < t.size := ((hv.mem_live i).mp hi.1).1

/-! ## Looking up -/

theorem has_of_home (hv : t.Valid)
    (h : (t.cells (t.homeOf k)).used = true ∧ (t.cells (t.homeOf k)).key = k) :
    t.Has k (t.homeOf k) (t.cells (t.homeOf k)).content :=
  ⟨(hv.mem_live _).mpr ⟨hv.homeOf_lt k, h.1⟩, h.2, rfl⟩

theorem find_eq (hv : t.Valid) (h : t.Has k i b) : t.find k = i := by
  unfold find
  split
  · next hhome => exact (hv.has_unique (hv.has_of_home hhome) h).1
  · next hhome =>
    -- not at its home, so it is displaced, and the scan stops at it
    have hne : i ≠ t.homeOf k := by
      intro he
      subst he
      exact hhome ⟨((hv.mem_live _).mp h.1).2, h.2.1⟩
    have hdisplaced : (t.cells i).displaced = true := by
      rw [hv.displaced_eq i h.1, h.2.1]
      exact decide_eq_true hne
    have hpos : 0 < t.displaced := by
      rw [hv.count]
      exact List.countP_pos_iff.mpr ⟨i, h.1, hdisplaced⟩
    rw [if_neg (by omega)]
    cases hfind : t.live.find? fun i => decide ((t.cells i).displaced = true ∧ (t.cells i).key = k) with
    | none =>
      have hno := List.find?_eq_none.mp hfind i h.1
      exact absurd (decide_eq_true ⟨hdisplaced, h.2.1⟩) hno
    | some j =>
      have hj := List.find?_some hfind
      have hhas : t.Has k j (t.cells j).content :=
        ⟨List.mem_of_find?_eq_some hfind, (of_decide_eq_true hj).2, rfl⟩
      exact (hv.has_unique hhas h).1

theorem find_of_absent (hv : t.Valid) (h : ∀ i b, ¬ t.Has k i b) : t.find k = t.size := by
  unfold find
  rw [if_neg (fun hhome => h _ _ (hv.has_of_home hhome))]
  split
  · rfl
  · cases hfind : t.live.find? fun i => decide ((t.cells i).displaced = true ∧ (t.cells i).key = k) with
    | none => rfl
    | some j =>
      have hj := List.find?_some hfind
      exact absurd ⟨List.mem_of_find?_eq_some hfind, (of_decide_eq_true hj).2, rfl⟩ (h j _)

/-- A lookup either finds the cell of a key, or there is none. -/
theorem find_cases (hv : t.Valid) (k : Nat) :
    t.find k = t.size ∧ (∀ i b, ¬ t.Has k i b) ∨
      t.find k < t.size ∧ t.Has k (t.find k) (t.cells (t.find k)).content := by
  by_cases h : ∃ i b, t.Has k i b
  · obtain ⟨i, b, hi⟩ := h
    right
    rw [hv.find_eq hi]
    exact ⟨hv.lt_of_has hi, hi.1, hi.2.1, rfl⟩
  · have hno : ∀ i b, ¬ t.Has k i b := fun i b hi => h ⟨i, b, hi⟩
    exact .inl ⟨hv.find_of_absent hno, hno⟩

/-! ## A new key -/

theorem freeCell_le (hv : t.Valid) (k : Nat) : t.freeCell k ≤ t.size := by
  unfold freeCell
  split
  · cases hfind : (List.range t.size).find? fun i => !(t.cells i).used with
    | none => exact Nat.le_refl _
    | some j => exact Nat.le_of_lt (List.mem_range.mp (List.mem_of_find?_eq_some hfind))
  · exact Nat.le_of_lt (hv.homeOf_lt k)

theorem freeCell_notMem (hv : t.Valid) (k : Nat) : t.freeCell k ∉ t.live := by
  intro hmem
  obtain ⟨hlt, hused⟩ := (hv.mem_live _).mp hmem
  unfold freeCell at hlt hused
  split at hlt
  · next h =>
    rw [if_pos h] at hused
    cases hfind : (List.range t.size).find? fun i => !(t.cells i).used with
    | none =>
      rw [hfind] at hlt
      exact absurd hlt (Nat.lt_irrefl _)
    | some j =>
      rw [hfind] at hused
      have hj := List.find?_some hfind
      rw [Option.getD_some] at hused
      simp [hused] at hj
  · next h =>
    rw [if_neg h] at hused
    exact h hused

theorem cells_claim (hv : t.Valid) (k : Nat) (b : β) (hj : j ∈ t.live) :
    (t.claim k b).cells j = t.cells j := by
  apply Function.update_of_ne
  intro he
  rw [he] at hj
  exact hv.freeCell_notMem k hj

theorem cells_claim_self (t : HomeTable β) (k : Nat) (b : β) :
    (t.claim k b).cells (t.freeCell k) =
      ⟨k, true, decide (t.freeCell k ≠ t.homeOf k), t.live.length, b⟩ :=
  Function.update_self ..

theorem mem_live_claim (t : HomeTable β) (k : Nat) (b : β) :
    j ∈ (t.claim k b).live ↔ j ∈ t.live ∨ j = t.freeCell k := by
  change j ∈ t.live ++ [t.freeCell k] ↔ _
  rw [List.mem_append, List.mem_singleton]

theorem has_claim (hv : t.Valid) :
    (t.claim k b).Has l j c ↔ t.Has l j c ∨ l = k ∧ j = t.freeCell k ∧ c = b := by
  unfold Has
  rw [mem_live_claim]
  constructor
  · rintro ⟨hj | rfl, hkey, hcontent⟩
    · rw [hv.cells_claim k b hj] at hkey hcontent
      exact .inl ⟨hj, hkey, hcontent⟩
    · rw [cells_claim_self] at hkey hcontent
      exact .inr ⟨hkey.symm, rfl, hcontent.symm⟩
  · rintro (⟨hj, hkey, hcontent⟩ | ⟨rfl, rfl, rfl⟩)
    · rw [hv.cells_claim k b hj]
      exact ⟨.inl hj, hkey, hcontent⟩
    · rw [cells_claim_self]
      exact ⟨.inr rfl, rfl, rfl⟩

theorem claim (hv : t.Valid) (habsent : ∀ i b, ¬ t.Has k i b) : (t.claim k b).Valid := by
  have hfree := hv.freeCell_notMem k
  have hle := hv.freeCell_le k
  have hsize : (t.claim k b).size = if t.freeCell k = t.size then t.size + 1 else t.size := rfl
  refine ⟨hv.home_pos, ?_, ?_, fun j => ?_, fun j hj => ?_, fun j hj => ?_, ?_,
    fun j hj l hl heq => ?_⟩
  · have hhome : (t.claim k b).home ≤ t.size := hv.home_le
    rw [hsize]
    split <;> omega
  · apply List.nodup_append.mpr
    refine ⟨hv.nodup, List.nodup_singleton _, fun x hx y hy he => ?_⟩
    rw [he, List.mem_singleton.mp hy] at hx
    exact hfree hx
  · rw [mem_live_claim, hsize]
    by_cases he : j = t.freeCell k
    · subst he
      rw [cells_claim_self]
      simp only [or_true, and_true, true_iff]
      split <;> omega
    · have hcell : (t.claim k b).cells j = t.cells j := Function.update_of_ne he _ _
      rw [hcell, or_iff_left he, hv.mem_live j]
      split
      · next hfull =>
        rw [hfull] at he
        constructor
        · exact fun h => ⟨by omega, h.2⟩
        · exact fun h => ⟨by omega, h.2⟩
      · exact Iff.rfl
  · change (t.live ++ [t.freeCell k])[_]? = _
    rcases (mem_live_claim t k b).mp hj with hj | rfl
    · rw [hv.cells_claim k b hj]
      have hat := hv.liveAt j hj
      rw [List.getElem?_append_left (List.getElem?_eq_some_iff.mp hat).1]
      exact hat
    · rw [cells_claim_self]
      simp
  · rcases (mem_live_claim t k b).mp hj with hj | rfl
    · rw [hv.cells_claim k b hj]
      exact hv.displaced_eq j hj
    · rw [cells_claim_self]
      rfl
  · change t.displaced + (decide (t.freeCell k ≠ t.homeOf k)).toNat =
      (t.live ++ [t.freeCell k]).countP _
    rw [List.countP_append, hv.count, List.countP_singleton, cells_claim_self]
    congr 1
    · exact List.countP_congr fun j hj => by rw [hv.cells_claim k b hj]
    · cases decide (t.freeCell k ≠ t.homeOf k) <;> rfl
  · rcases (mem_live_claim t k b).mp hj with hj | rfl <;>
      rcases (mem_live_claim t k b).mp hl with hl | rfl
    · rw [hv.cells_claim k b hj, hv.cells_claim k b hl] at heq
      exact hv.key_inj j hj l hl heq
    · rw [hv.cells_claim k b hj, cells_claim_self] at heq
      exact absurd ⟨hj, heq, rfl⟩ (habsent j _)
    · rw [hv.cells_claim k b hl, cells_claim_self] at heq
      exact absurd ⟨hl, heq.symm, rfl⟩ (habsent l _)
    · rfl

/-! ## Freeing a cell -/

theorem used (hv : t.Valid) (hi : i ∈ t.live) : (t.cells i).used = true :=
  ((hv.mem_live i).mp hi).2

theorem live_release (hv : t.Valid) (hi : i ∈ t.live) :
    (t.release i).live = swapRemove t.live (t.cells i).liveAt := by
  unfold HomeTable.release
  rw [if_pos (hv.used hi)]

theorem perm_release (hv : t.Valid) (hi : i ∈ t.live) : t.live.Perm (i :: (t.release i).live) := by
  rw [hv.live_release hi]
  exact perm_swapRemove (hv.liveAt i hi)

theorem mem_live_release (hv : t.Valid) (hi : i ∈ t.live) :
    j ∈ (t.release i).live ↔ j ∈ t.live ∧ j ≠ i := by
  have hnodup := (hv.perm_release hi).nodup_iff.mp hv.nodup
  rw [(hv.perm_release hi).mem_iff, List.mem_cons]
  constructor
  · intro hj
    refine ⟨.inr hj, fun he => ?_⟩
    rw [he] at hj
    exact (List.nodup_cons.mp hnodup).1 hj
  · rintro ⟨he | hj, hne⟩
    · exact absurd he hne
    · exact hj

/-- The cells other than the freed one change only their place in the list. -/
theorem cells_release (hv : t.Valid) (hi : i ∈ t.live) (hne : j ≠ i) :
    (t.release i).cells j = { t.cells j with
      liveAt := if j = t.live.getLastD 0 then (t.cells i).liveAt else (t.cells j).liveAt } := by
  unfold HomeTable.release
  rw [if_pos (hv.used hi)]
  change Function.update _ i _ j = _
  rw [Function.update_of_ne hne]
  by_cases he : j = t.live.getLastD 0
  · rw [if_pos he, he, Function.update_self]
  · rw [if_neg he, Function.update_of_ne he]

theorem has_release (hv : t.Valid) (hi : i ∈ t.live) :
    (t.release i).Has l j c ↔ t.Has l j c ∧ j ≠ i := by
  unfold Has
  rw [hv.mem_live_release hi]
  constructor
  · rintro ⟨⟨hj, hne⟩, hkey, hcontent⟩
    rw [hv.cells_release hi hne] at hkey hcontent
    exact ⟨⟨hj, hkey, hcontent⟩, hne⟩
  · rintro ⟨⟨hj, hkey, hcontent⟩, hne⟩
    rw [hv.cells_release hi hne]
    exact ⟨⟨hj, hne⟩, hkey, hcontent⟩

theorem getLastD_mem (hi : i ∈ t.live) : t.live[t.live.length - 1]? = some (t.live.getLastD 0) := by
  rcases List.eq_nil_or_concat t.live with hnil | ⟨init, last, hl⟩
  · rw [hnil] at hi
    exact absurd hi List.not_mem_nil
  · simp [hl]

/-- A cell stands in the list at the place that it notes, also after another one was removed. -/
theorem liveAt_release (hv : t.Valid) (hi : i ∈ t.live) (hj : j ∈ t.live) (hne : j ≠ i) :
    (t.release i).live[((t.release i).cells j).liveAt]? = some j := by
  rw [hv.live_release hi, hv.cells_release hi hne]
  have hati := hv.liveAt i hi
  have hatj := hv.liveAt j hj
  have hlast := getLastD_mem hi
  obtain ⟨hilt, -⟩ := List.getElem?_eq_some_iff.mp hati
  obtain ⟨hjlt, -⟩ := List.getElem?_eq_some_iff.mp hatj
  by_cases he : j = t.live.getLastD 0
  · rw [if_pos he]
    have hplace : (t.cells i).liveAt ≠ t.live.length - 1 := by
      intro hp
      rw [hp, hlast, ← he] at hati
      exact hne (Option.some.inj hati)
    change (swapRemove t.live (t.cells i).liveAt)[(t.cells i).liveAt]? = _
    rw [getElem?_swapRemove (by omega), if_pos rfl, he]
  · rw [if_neg he]
    change (swapRemove t.live (t.cells i).liveAt)[(t.cells j).liveAt]? = _
    have hplace : (t.cells j).liveAt ≠ t.live.length - 1 := by
      intro hp
      rw [hp, hlast] at hatj
      exact he (Option.some.inj hatj).symm
    have hother : (t.cells j).liveAt ≠ (t.cells i).liveAt := by
      intro hp
      rw [hp, hati] at hatj
      exact hne (Option.some.inj hatj).symm
    rw [getElem?_swapRemove (by omega), if_neg hother, hatj]

theorem release (hv : t.Valid) (hi : i ∈ t.live) : (t.release i).Valid := by
  have hhome : (t.release i).home = t.home := by
    unfold HomeTable.release
    split <;> rfl
  have hsize : (t.release i).size = t.size := by
    unfold HomeTable.release
    split <;> rfl
  have hmem : ∀ j, j ∈ (t.release i).live ↔ j ∈ t.live ∧ j ≠ i := fun j => hv.mem_live_release hi
  refine ⟨?_, ?_, ?_, fun j => ?_, fun j hj => ?_, fun j hj => ?_, ?_, fun j hj l hl heq => ?_⟩
  · rw [hhome]
    exact hv.home_pos
  · rw [hhome, hsize]
    exact hv.home_le
  · exact (List.nodup_cons.mp ((hv.perm_release hi).nodup_iff.mp hv.nodup)).2
  · rw [hmem, hsize]
    by_cases he : j = i
    · subst he
      have hfree : ((t.release j).cells j).used = false := by
        unfold HomeTable.release
        simp only [if_pos (hv.used hi), Function.update_self]
      simp [hfree]
    · rw [hv.cells_release hi he, hv.mem_live j]
      exact and_iff_left he
  · obtain ⟨hj, hne⟩ := (hmem j).mp hj
    exact hv.liveAt_release hi hj hne
  · obtain ⟨hj, hne⟩ := (hmem j).mp hj
    rw [hv.cells_release hi hne, homeOf, hhome]
    exact hv.displaced_eq j hj
  · have hcount : (t.release i).displaced = t.displaced - (t.cells i).displaced.toNat := by
      unfold HomeTable.release
      rw [if_pos (hv.used hi)]
    have hrest : (t.release i).live.countP (fun j => ((t.release i).cells j).displaced) =
        (t.release i).live.countP (fun j => (t.cells j).displaced) :=
      List.countP_congr fun j hj => by rw [hv.cells_release hi ((hmem j).mp hj).2]
    rw [hcount, hrest, hv.count, (hv.perm_release hi).countP_eq, List.countP_cons]
    cases (t.cells i).displaced <;> simp
  · obtain ⟨hj, hjne⟩ := (hmem j).mp hj
    obtain ⟨hl, hlne⟩ := (hmem l).mp hl
    rw [hv.cells_release hi hjne, hv.cells_release hi hlne] at heq
    exact hv.key_inj j hj l hl heq

/-! ## New content in a cell -/

theorem cells_write (t : HomeTable β) (i : Nat) (b : β) (j : Nat) :
    (t.write i b).cells j = { t.cells j with content := if j = i then b else (t.cells j).content } := by
  change Function.update _ i _ j = _
  by_cases he : j = i
  · rw [if_pos he, he, Function.update_self]
  · rw [if_neg he, Function.update_of_ne he]

theorem has_write_self : (t.write i b).Has l i c ↔ (∃ a, t.Has l i a) ∧ c = b := by
  unfold Has
  rw [cells_write, if_pos rfl]
  constructor
  · rintro ⟨hi, hkey, hcontent⟩
    exact ⟨⟨_, hi, hkey, rfl⟩, hcontent.symm⟩
  · rintro ⟨⟨_, hi, hkey, -⟩, rfl⟩
    exact ⟨hi, hkey, rfl⟩

theorem has_write_of_ne (hne : j ≠ i) : (t.write i b).Has l j c ↔ t.Has l j c := by
  unfold Has
  rw [cells_write, if_neg hne]
  exact Iff.rfl

theorem write (hv : t.Valid) : (t.write i b).Valid := by
  refine ⟨hv.home_pos, hv.home_le, hv.nodup, fun j => ?_, fun j hj => ?_, fun j hj => ?_, ?_,
    fun j hj l hl heq => ?_⟩
  · rw [cells_write]
    exact hv.mem_live j
  · rw [cells_write]
    exact hv.liveAt j hj
  · rw [cells_write]
    exact hv.displaced_eq j hj
  · simp only [cells_write]
    exact hv.count
  · rw [cells_write, cells_write] at heq
    exact hv.key_inj j hj l hl heq

end Valid

end HomeTable

end CudaqQec
