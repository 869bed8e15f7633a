import Mathlib.Algebra.MonoidAlgebra.Defs
import Mathlib.Algebra.BigOperators.Ring.Finset
import Mathlib.Algebra.BigOperators.Ring.List
import Mathlib.Tactic.Abel
import Mathlib.Tactic.Ring

/-!
# Independent mechanisms

Mechanisms that each occur with a probability of their own, independently, and then add their effect
to the outcome. The distribution of the outcome (`outcomeProbability`) is a coefficient of a product
in the group algebra, one factor for each mechanism (`law`). Effects are their own inverses, as bit
vectors are, so two mechanisms with one effect act like a single one whose rate is the probability
that exactly one of them occurs (`xorRate`).
-/

namespace CudaqQec.Mechanisms

open Finset AddMonoidAlgebra

variable {K G : Type} [CommRing K] [AddCommGroup G]

/-! ## The distribution -/

/-- The probability of the outcome `x` under mechanisms `0, …, n - 1`: the sum over the sets of
mechanisms that may occur together. -/
def outcomeProbability [DecidableEq G] (n : Nat) (rate : Nat → K) (effect : Nat → G) (x : G) : K :=
  ∑ S ∈ (range n).powerset,
    if ∑ i ∈ S, effect i = x then (∏ i ∈ S, rate i) * ∏ i ∈ range n \ S, (1 - rate i) else 0

noncomputable def factor (rate : K) (effect : G) : AddMonoidAlgebra K G :=
  single effect rate + single 0 (1 - rate)

noncomputable def law (ms : List (K × G)) : AddMonoidAlgebra K G :=
  (ms.map fun m => factor m.1 m.2).prod

@[simp] theorem law_cons (m : K × G) (ms : List (K × G)) : law (m :: ms) = factor m.1 m.2 * law ms :=
  List.prod_cons

@[simp] theorem law_append (ms ms' : List (K × G)) : law (ms ++ ms') = law ms * law ms' := by
  rw [law, List.map_append, List.prod_append]
  rfl

theorem law_perm {ms ms' : List (K × G)} (h : ms.Perm ms') : law ms = law ms' :=
  (h.map _).prod_eq

theorem law_map_range (n : Nat) (rate : Nat → K) (effect : Nat → G) :
    law ((List.range n).map fun i => (rate i, effect i)) =
      ∏ i ∈ range n, factor (rate i) (effect i) := by
  rw [law, List.map_map]
  rfl

theorem coeff_law [DecidableEq G] (n : Nat) (rate : Nat → K) (effect : Nat → G) (x : G) :
    (law ((List.range n).map fun i => (rate i, effect i))).coeff x =
      outcomeProbability n rate effect x := by
  have hterm : ∀ S ∈ (range n).powerset,
      (∏ i ∈ S, single (effect i) (rate i)) * ∏ i ∈ range n \ S, single (0 : G) (1 - rate i) =
        single (∑ i ∈ S, effect i) ((∏ i ∈ S, rate i) * ∏ i ∈ range n \ S, (1 - rate i)) := by
    intro S _
    rw [prod_single, prod_single, single_mul_single, Finset.sum_const_zero, add_zero]
  rw [law_map_range]
  unfold factor
  rw [Finset.prod_add, Finset.sum_congr rfl hterm, coeff_sum, Finset.sum_apply']
  apply Finset.sum_congr rfl
  intro S _
  rw [coeff_single, Finsupp.single_apply]

/-! ## Mechanisms that change nothing -/

theorem factor_zero_rate (effect : G) : factor (0 : K) effect = 1 := by
  rw [factor, single_zero, zero_add, sub_zero]
  rfl

theorem factor_zero_effect (rate : K) : factor rate (0 : G) = 1 := by
  rw [factor, ← single_add, add_sub_cancel]
  rfl

/-! ## Mechanisms with one effect -/

def xorRate (p q : K) : K := p + q - 2 * p * q

theorem factor_mul_factor {effect : G} (h : effect + effect = 0) (p q : K) :
    factor p effect * factor q effect = factor (xorRate p q) effect := by
  have hself : 1 - xorRate p q = p * q + (1 - p) * (1 - q) := by
    unfold xorRate
    ring
  have hcross : xorRate p q = p * (1 - q) + (1 - p) * q := by
    unfold xorRate
    ring
  rw [factor, factor, factor, add_mul, mul_add, mul_add, single_mul_single, single_mul_single,
    single_mul_single, single_mul_single, h, add_zero, zero_add, zero_add, hself, hcross, single_add,
    single_add]
  abel

def xorRates (rates : List K) : K := rates.foldl xorRate 0

theorem one_sub_two_mul_foldl (rates : List K) (p : K) :
    1 - 2 * rates.foldl xorRate p = (1 - 2 * p) * (rates.map fun q => 1 - 2 * q).prod := by
  induction rates generalizing p with
  | nil => simp
  | cons q rates ih =>
    rw [List.foldl_cons, ih, List.map_cons, List.prod_cons, ← mul_assoc]
    congr 1
    unfold xorRate
    ring

/-- The order of the mechanisms does not matter. -/
theorem xorRates_perm [IsDomain K] (two : (2 : K) ≠ 0) {rates rates' : List K}
    (h : rates.Perm rates') : xorRates rates = xorRates rates' := by
  have hp := one_sub_two_mul_foldl rates 0
  have hp' := one_sub_two_mul_foldl rates' 0
  rw [(h.map fun q => 1 - 2 * q).prod_eq, ← hp'] at hp
  exact mul_left_cancel₀ two (sub_right_injective hp)

theorem xorRates_concat (rates : List K) (p : K) :
    xorRates (rates ++ [p]) = xorRate (xorRates rates) p := by
  rw [xorRates, List.foldl_append]
  rfl

theorem prod_factor {effect : G} (h : effect + effect = 0) (rates : List K) :
    (rates.map fun p => factor p effect).prod = factor (xorRates rates) effect := by
  induction rates using List.reverseRecOn with
  | nil => exact (factor_zero_rate effect).symm
  | append_singleton rates p ih =>
    rw [List.map_append, List.prod_append, ih, xorRates_concat, ← factor_mul_factor h,
      List.map_singleton, List.prod_singleton]

end CudaqQec.Mechanisms
