import Mathlib.Algebra.Order.BigOperators.Group.Finset
import Mathlib.Algebra.BigOperators.Fin
import Mathlib.Tactic.Linarith

/-!
# Optimal assignments by potentials

An injective assignment of rows to columns has the least total cost when potentials fit it: no row
and column together exceed their cost, an assigned pair reaches it, and the columns' potentials are
not positive, and zero where no row is assigned.
-/

namespace AssignmentDual

open Finset

variable {ι κ K : Type} [Fintype ι] [Fintype κ] [DecidableEq κ]
  [AddCommGroup K] [LinearOrder K] [IsOrderedAddMonoid K]
  {cost : ι → κ → K} {u : ι → K} {v : κ → K}

theorem sum_le_sum_comp (hv : ∀ j, v j ≤ 0) {a : ι → κ} (ha : Function.Injective a) :
    ∑ j, v j ≤ ∑ i, v (a i) := by
  rw [← sum_image (s := univ) (f := v) fun i _ j _ h => ha h]
  refine sum_le_sum_of_subset_of_nonpos' (subset_univ _) fun j _ _ => hv j

theorem sum_le_of_potentials (hle : ∀ i j, u i + v j ≤ cost i j) (hv : ∀ j, v j ≤ 0)
    {a : ι → κ} (ha : Function.Injective a) (ht : ∀ i, u i + v (a i) = cost i (a i))
    (hf : ∀ j, (∀ i, a i ≠ j) → v j = 0) {b : ι → κ} (hb : Function.Injective b) :
    ∑ i, cost i (a i) ≤ ∑ i, cost i (b i) := by
  have hal : ∑ i, v (a i) = ∑ j, v j := by
    rw [← sum_image (s := univ) (f := v) fun i _ j _ h => ha h]
    refine sum_subset (subset_univ _) fun j _ hj => hf j fun i hi => hj ?_
    exact mem_image.mpr ⟨i, mem_univ i, hi⟩
  calc ∑ i, cost i (a i) = ∑ i, (u i + v (a i)) := sum_congr rfl fun i _ => (ht i).symm
    _ = ∑ i, u i + ∑ j, v j := by rw [sum_add_distrib, hal]
    _ ≤ ∑ i, u i + ∑ i, v (b i) := by
        gcongr
        exact sum_le_sum_comp hv hb
    _ = ∑ i, (u i + v (b i)) := sum_add_distrib.symm
    _ ≤ ∑ i, cost i (b i) := sum_le_sum fun i _ => hle i (b i)

end AssignmentDual
