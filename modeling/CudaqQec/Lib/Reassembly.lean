import Mathlib.Data.List.Basic
import Mathlib.Data.List.Perm.Basic
import Mathlib.Data.List.Pairwise
import Mathlib.Order.Bounds.Basic

/-!
# Pieces of a line that come out of order

Half-open pieces of the natural numbers arrive in any order. What reaches from 0 without a gap is
absorbed; the rest waits, in order, behind the gap. A new piece is put in its place among those that
wait, and then all that follow on the frontier are absorbed.

* `GapFree`: how far a set of pieces reaches from 0.
* `Assembled`: the frontier, what was absorbed and what waits, for the pieces that came.
* `Assembled.accept`: one more piece.
-/

namespace CudaqQec

structure Piece (α : Type) where
  begin : Nat
  stop : Nat
  load : α

namespace Piece

variable {α : Type}

/-! ## Pieces and their order -/

def Disjoint (p q : Piece α) : Prop := p.stop ≤ q.begin ∨ q.stop ≤ p.begin

inductive GapFree (l : List (Piece α)) : Nat → Prop where
  | zero : GapFree l 0
  | step {a : Nat} {p : Piece α} : GapFree l a → p ∈ l → p.begin = a → GapFree l p.stop

def insert (x : Piece α) (l : List (Piece α)) : List (Piece α) :=
  l.takeWhile (fun p => decide (p.begin ≤ x.begin)) ++
    x :: l.dropWhile fun p => decide (p.begin ≤ x.begin)

@[grind =] def drain (frontier : Nat) : List (Piece α) → List (Piece α) × Nat × List (Piece α)
  | [] => ([], frontier, [])
  | p :: ps =>
    if p.begin = frontier then
      let r := drain p.stop ps
      (p :: r.1, r.2)
    else ([], frontier, p :: ps)

@[grind =] def Run : Nat → List (Piece α) → Nat → Prop
  | a, [], b => a = b
  | a, p :: ps, b => p.begin = a ∧ p.begin < p.stop ∧ Run p.stop ps b

structure Assembled (l : List (Piece α)) (frontier : Nat) (absorbed waiting : List (Piece α)) :
    Prop where
  perm : l.Perm (absorbed ++ waiting)
  run : Run 0 absorbed frontier
  sorted : waiting.Pairwise fun p q => p.stop ≤ q.begin
  nonempty : ∀ p ∈ waiting, p.begin < p.stop
  above : ∀ p ∈ waiting, frontier < p.begin

variable {l absorbed waiting : List (Piece α)} {a b c frontier : Nat} {p x : Piece α}

/-! ## Runs -/

theorem Run.append {ps qs : List (Piece α)} (h : Run a ps b) (h' : Run b qs c) :
    Run a (ps ++ qs) c := by
  induction ps generalizing a with
  | nil =>
    cases h
    exact h'
  | cons p ps ih => exact ⟨h.1, h.2.1, ih h.2.2⟩

theorem Run.of_append {ps qs : List (Piece α)} (h : Run a ps b) (h' : Run a (ps ++ qs) c) :
    Run b qs c := by
  induction ps generalizing a with
  | nil =>
    cases h
    exact h'
  | cons p ps ih => exact ih h.2.2 h'.2.2

theorem Run.le {ps : List (Piece α)} (h : Run a ps b) : a ≤ b := by
  induction ps generalizing a with
  | nil => exact Nat.le_of_eq h
  | cons p ps ih =>
    have := ih h.2.2
    have := h.1
    have := h.2.1
    omega

theorem Run.lt {ps : List (Piece α)} (h : Run a ps b) (hne : ps ≠ []) : a < b := by
  cases ps with
  | nil => exact absurd rfl hne
  | cons p ps =>
    have := h.2.2.le
    have := h.1
    have := h.2.1
    omega

theorem Run.stop_le {ps : List (Piece α)} (h : Run a ps b) : ∀ p ∈ ps, a ≤ p.begin ∧ p.stop ≤ b := by
  induction ps generalizing a with
  | nil =>
    intro p hp
    exact absurd hp List.not_mem_nil
  | cons q ps ih =>
    obtain ⟨hbegin, hne, hrest⟩ := h
    intro p hp
    rcases List.mem_cons.mp hp with rfl | hp
    · exact ⟨Nat.le_of_eq hbegin.symm, hrest.le⟩
    · obtain ⟨hlo, hhi⟩ := ih hrest p hp
      exact ⟨by omega, hhi⟩

/-- A run leaves out no number between its ends. -/
theorem Run.covers {ps : List (Piece α)} (h : Run a ps b) {n : Nat} (ha : a ≤ n) (hb : n < b) :
    ∃ p ∈ ps, p.begin ≤ n ∧ n < p.stop := by
  induction ps generalizing a with
  | nil =>
    cases h
    omega
  | cons q ps ih =>
    obtain ⟨hbegin, hne, hrest⟩ := h
    by_cases hn : n < q.stop
    · exact ⟨q, List.mem_cons_self .., by omega, hn⟩
    · obtain ⟨p, hp, hpn⟩ := ih hrest (by omega)
      exact ⟨p, List.mem_cons_of_mem _ hp, hpn⟩

theorem Run.gapFree {ps : List (Piece α)} (h : Run a ps b) (hsub : ∀ p ∈ ps, p ∈ l)
    (ha : GapFree l a) : GapFree l b := by
  induction ps generalizing a with
  | nil =>
    cases h
    exact ha
  | cons q ps ih =>
    obtain ⟨hbegin, -, hrest⟩ := h
    exact ih hrest (fun p hp => hsub p (List.mem_cons_of_mem _ hp))
      (.step ha (hsub q (List.mem_cons_self ..)) hbegin)

/-! ## Draining a queue -/

theorem drain_spec (frontier : Nat) (ps : List (Piece α)) (hne : ∀ p ∈ ps, p.begin < p.stop)
    (hsorted : ps.Pairwise fun p q => p.stop ≤ q.begin) (habove : ∀ p ∈ ps, frontier ≤ p.begin) :
    ps = (drain frontier ps).1 ++ (drain frontier ps).2.2 ∧
      Run frontier (drain frontier ps).1 (drain frontier ps).2.1 ∧
      ∀ p ∈ (drain frontier ps).2.2, (drain frontier ps).2.1 < p.begin := by
  induction ps generalizing frontier with
  | nil => exact ⟨rfl, rfl, fun p hp => absurd hp List.not_mem_nil⟩
  | cons q ps ih =>
    unfold drain
    obtain ⟨hq, hps⟩ := List.pairwise_cons.mp hsorted
    split
    · next hbegin =>
      obtain ⟨heq, hrun, hafter⟩ := ih q.stop (fun p hp => hne p (List.mem_cons_of_mem _ hp)) hps hq
      exact ⟨by rw [List.cons_append, ← heq], ⟨hbegin, hne q (List.mem_cons_self ..), hrun⟩, hafter⟩
    · next hbegin =>
      refine ⟨rfl, rfl, fun p hp => ?_⟩
      have hfirst := habove q (List.mem_cons_self ..)
      change frontier < p.begin
      rcases List.mem_cons.mp hp with rfl | hp
      · omega
      · have := hq p hp
        have := hne q (List.mem_cons_self ..)
        omega

/-- What is drained begins no earlier than the frontier, which does not go back. -/
theorem drain_le (frontier : Nat) (ps : List (Piece α)) (hne : ∀ p ∈ ps, p.begin < p.stop) :
    frontier ≤ (drain frontier ps).2.1 ∧ (∀ p ∈ (drain frontier ps).1, frontier ≤ p.begin) ∧
      ((drain frontier ps).2.1 = frontier ∨ ∃ p ∈ ps, (drain frontier ps).2.1 = p.stop) := by
  induction ps generalizing frontier with
  | nil => exact ⟨Nat.le_refl _, fun p hp => absurd hp List.not_mem_nil, .inl rfl⟩
  | cons q ps ih =>
    have hq := hne q (List.mem_cons_self ..)
    unfold drain
    split
    · next hbegin =>
      obtain ⟨hle, hmem, hend⟩ := ih q.stop fun p hp => hne p (List.mem_cons_of_mem _ hp)
      refine ⟨by dsimp only; omega, fun p hp => ?_, .inr ?_⟩
      · rcases List.mem_cons.mp hp with rfl | hp
        · omega
        · have := hmem p hp
          omega
      · rcases hend with hend | ⟨p, hp, hend⟩
        · exact ⟨q, List.mem_cons_self .., hend⟩
        · exact ⟨p, List.mem_cons_of_mem _ hp, hend⟩
    · exact ⟨Nat.le_refl _, fun p hp => absurd hp List.not_mem_nil, .inl rfl⟩

/-! ## Queueing a piece -/

theorem perm_insert (x : Piece α) (l : List (Piece α)) : (insert x l).Perm (x :: l) := by
  unfold insert
  refine List.perm_middle.trans ?_
  rw [List.takeWhile_append_dropWhile]

/-- Among disjoint pieces in order, a new one stands in its place. -/
theorem sorted_insert (hsorted : l.Pairwise fun p q => p.stop ≤ q.begin)
    (hne : ∀ p ∈ l, p.begin < p.stop) (hx : x.begin < x.stop) (hdis : ∀ p ∈ l, Disjoint p x) :
    (insert x l).Pairwise fun p q => p.stop ≤ q.begin := by
  induction l with
  | nil => exact List.pairwise_singleton _ x
  | cons q l ih =>
    obtain ⟨hq, hl⟩ := List.pairwise_cons.mp hsorted
    have hrest := ih hl (fun p hp => hne p (List.mem_cons_of_mem _ hp))
      fun p hp => hdis p (List.mem_cons_of_mem _ hp)
    have hqx := hdis q (List.mem_cons_self ..)
    have hqne := hne q (List.mem_cons_self ..)
    by_cases hle : q.begin ≤ x.begin
    · have heq : insert x (q :: l) = q :: insert x l := by
        simp [insert, hle]
      rw [heq]
      refine List.pairwise_cons.mpr ⟨fun p hp => ?_, hrest⟩
      rcases List.mem_cons.mp ((perm_insert x l).mem_iff.mp hp) with rfl | hp
      · rcases hqx with h | h
        · exact h
        · omega
      · exact hq p hp
    · have heq : insert x (q :: l) = x :: q :: l := by
        simp [insert, hle]
      rw [heq]
      refine List.pairwise_cons.mpr ⟨fun p hp => ?_, hsorted⟩
      have hxq : x.stop ≤ q.begin := by
        rcases hqx with h | h
        · omega
        · exact h
      rcases List.mem_cons.mp hp with rfl | hp
      · exact hxq
      · have := hq p hp
        omega

/-! ## What is assembled -/

namespace Assembled

theorem empty : Assembled ([] : List (Piece α)) 0 [] [] where
  perm := List.Perm.nil
  run := rfl
  sorted := List.Pairwise.nil
  nonempty _ hp := absurd hp List.not_mem_nil
  above _ hp := absurd hp List.not_mem_nil

/-- A piece that overlaps none that came lies at the frontier or behind it. -/
theorem frontier_le (h : Assembled l frontier absorbed waiting) (hx : x.begin < x.stop)
    (hdis : ∀ p ∈ l, Disjoint p x) : frontier ≤ x.begin := by
  by_contra hlt
  obtain ⟨p, hp, hlo, hhi⟩ := h.run.covers (Nat.zero_le x.begin) (by omega)
  have hpl : p ∈ l := h.perm.mem_iff.mpr (List.mem_append_left _ hp)
  rcases hdis p hpl with hd | hd <;> omega

/-- One more piece: it is put among those that wait, and what then follows on the frontier is
absorbed. -/
theorem accept (h : Assembled l frontier absorbed waiting) (hx : x.begin < x.stop)
    (hdis : ∀ p ∈ l, Disjoint p x) :
    Assembled (l ++ [x]) (drain frontier (insert x waiting)).2.1
      (absorbed ++ (drain frontier (insert x waiting)).1)
      (drain frontier (insert x waiting)).2.2 := by
  have hperm := perm_insert x waiting
  have hne : ∀ p ∈ insert x waiting, p.begin < p.stop := by
    intro p hp
    rcases List.mem_cons.mp (hperm.mem_iff.mp hp) with rfl | hp
    · exact hx
    · exact h.nonempty p hp
  have hsorted := sorted_insert h.sorted h.nonempty hx fun p hp =>
    hdis p (h.perm.mem_iff.mpr (List.mem_append_right _ hp))
  have habove : ∀ p ∈ insert x waiting, frontier ≤ p.begin := by
    intro p hp
    rcases List.mem_cons.mp (hperm.mem_iff.mp hp) with rfl | hp
    · exact h.frontier_le hx hdis
    · exact Nat.le_of_lt (h.above p hp)
  obtain ⟨heq, hrun, hafter⟩ := drain_spec frontier (insert x waiting) hne hsorted habove
  have hsub : ∀ p ∈ (drain frontier (insert x waiting)).2.2, p ∈ insert x waiting := by
    intro p hp
    rw [heq]
    exact List.mem_append_right _ hp
  refine ⟨?_, h.run.append hrun, ?_, fun p hp => hne p (hsub p hp), hafter⟩
  · rw [List.append_assoc, ← heq]
    refine (h.perm.append_right [x]).trans ?_
    rw [List.append_assoc]
    refine List.Perm.append_left absorbed ?_
    exact (List.perm_append_singleton x waiting).trans hperm.symm
  · rw [heq] at hsorted
    exact (List.pairwise_append.mp hsorted).2.1

theorem stop_le (h : Assembled l frontier absorbed waiting) : ∀ p ∈ absorbed, p.stop ≤ frontier :=
  fun p hp => (h.run.stop_le p hp).2

theorem isGreatest (h : Assembled l frontier absorbed waiting) : IsGreatest {f | GapFree l f} frontier := by
  constructor
  · exact h.run.gapFree (fun p hp => h.perm.mem_iff.mpr (List.mem_append_left _ hp)) .zero
  · intro f hf
    induction hf with
    | zero => exact Nat.zero_le _
    | step hgap hp hbegin ih =>
      rcases List.mem_append.mp (h.perm.mem_iff.mp hp) with hp | hp
      · exact h.stop_le _ hp
      · have := h.above _ hp
        omega

theorem perm_filter (h : Assembled l frontier absorbed waiting) :
    (l.filter fun p => decide (p.stop ≤ frontier)).Perm absorbed := by
  have hall := h.perm.filter fun p => decide (p.stop ≤ frontier)
  rw [List.filter_append] at hall
  have hdone : absorbed.filter (fun p => decide (p.stop ≤ frontier)) = absorbed :=
    List.filter_eq_self.mpr fun p hp => decide_eq_true (h.stop_le p hp)
  have hwait : waiting.filter (fun p => decide (p.stop ≤ frontier)) = [] := by
    apply List.filter_eq_nil_iff.mpr
    intro p hp hle
    have := h.above p hp
    have := h.nonempty p hp
    have := of_decide_eq_true hle
    omega
  rwa [hdone, hwait, List.append_nil] at hall

theorem perm_filter_waiting (h : Assembled l frontier absorbed waiting) :
    (l.filter fun p => decide (frontier < p.stop)).Perm waiting := by
  have hall := h.perm.filter fun p => decide (frontier < p.stop)
  rw [List.filter_append] at hall
  have hdone : absorbed.filter (fun p => decide (frontier < p.stop)) = [] := by
    apply List.filter_eq_nil_iff.mpr
    intro p hp hlt
    have := h.stop_le p hp
    have := of_decide_eq_true hlt
    omega
  have hwait : waiting.filter (fun p => decide (frontier < p.stop)) = waiting := by
    apply List.filter_eq_self.mpr
    intro p hp
    have := h.above p hp
    have := h.nonempty p hp
    exact decide_eq_true (by omega)
  rwa [hdone, hwait, List.nil_append] at hall

end Assembled

end Piece

end CudaqQec
