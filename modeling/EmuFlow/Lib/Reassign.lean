import Mathlib.Algebra.BigOperators.Group.Finset.Piecewise
import Mathlib.Algebra.BigOperators.Group.List.Basic
import Mathlib.Tactic

/-!
# Totals under reassignment

An assignment sends every index to a part, and a total sums what each index contributes where it
is. Moving one index changes the total by its own contribution; a list of terms changes by the
terms that read the index.
-/

namespace Reassign

open List
open Function (update update_of_ne)

section totals

variable {ι κ M : Type} [Fintype ι] [DecidableEq ι] [AddCommGroup M]

theorem sum_update (g : ι → κ → M) (a : ι → κ) (i : ι) (k : κ) :
    ∑ j, g j (update a i k j) = ∑ j, g j (a j) - g i (a i) + g i k := by
  have hf : (fun j => g j (update a i k j)) =
      update (fun j => g j (a j)) i (g i k) := by
    funext j
    by_cases hj : j = i
    · subst hj
      simp
    · simp [hj]
  rw [hf, Finset.sum_update_of_mem (Finset.mem_univ i),
    ← Finset.sum_sdiff (Finset.subset_univ {i}), Finset.sum_singleton]
  abel

theorem sum_eq_of_off {f g : ι → M} (i : ι) (h : ∀ j, j ≠ i → g j = f j) :
    ∑ j, g j = ∑ j, f j - f i + g i := by
  have hf : g = update f i (g i) := by
    funext j
    by_cases hj : j = i
    · subst hj
      simp
    · rw [update_of_ne hj, h j hj]
  calc ∑ j, g j = ∑ j, (fun _ m => m) j (update f i (g i) j) := by rw [← hf]
    _ = ∑ j, f j - f i + g i := sum_update (fun _ m => m) f i (g i)

end totals

section lists

variable {α M : Type} [AddCommGroup M]

theorem sum_map_of_filter {f g : α → M} {p : α → Bool} :
    ∀ {l : List α}, (∀ x ∈ l, p x = false → g x = f x) →
      (l.map g).sum = (l.map f).sum - ((l.filter p).map f).sum + ((l.filter p).map g).sum
  | [], _ => by simp
  | x :: l, h => by
    have ih := sum_map_of_filter (l := l) fun y hy => h y (mem_cons_of_mem _ hy)
    cases hp : p x with
    | true =>
      simp only [map_cons, sum_cons, filter_cons_of_pos hp, ih]
      abel
    | false =>
      have hx := h x mem_cons_self hp
      have hs : (x :: l).filter p = l.filter p := filter_cons_of_neg (by simp [hp])
      simp only [map_cons, sum_cons, hs, ih, hx]
      abel

end lists

section counts

variable {κ : Type} [DecidableEq κ]

/-- Moves an amount from one part to another. -/
def shift (c : κ → ℤ) (source target : κ) (w : ℤ) : κ → ℤ := fun k =>
  c k - (if k = source then w else 0) + (if k = target then w else 0)

variable {c : κ → ℤ} {source target k : κ} {w : ℤ}

theorem shift_of_ne (hs : k ≠ source) (ht : k ≠ target) : shift c source target w k = c k := by
  simp [shift, hs, ht]

theorem shift_source (h : source ≠ target) : shift c source target w source = c source - w := by
  simp [shift, h]

theorem shift_target (h : source ≠ target) : shift c source target w target = c target + w := by
  simp [shift, h.symm]

theorem shift_shift_symm : shift (shift c source target w) target source w = c := by
  funext k
  simp only [shift]
  ring

def total {ι : Type} [Fintype ι] (amount : ι → ℤ) (a : ι → κ) : κ → ℤ := fun k =>
  ∑ i, if a i = k then amount i else 0

/-- A reassignment moves the weight of one element. -/
theorem total_update {ι : Type} [Fintype ι] [DecidableEq ι] (amount : ι → ℤ) (a : ι → κ) (i : ι)
    (target : κ) :
    total amount (update a i target) = shift (total amount a) (a i) target (amount i) := by
  funext k
  rw [total, sum_update (fun j q => if q = k then amount j else 0) a i target]
  simp only [shift, total, eq_comm]

theorem total_nonneg {ι : Type} [Fintype ι] {amount : ι → ℤ} (h : ∀ i, 0 ≤ amount i) (a : ι → κ)
    (k : κ) : 0 ≤ total amount a k := by
  refine Finset.sum_nonneg fun i _ => ?_
  split_ifs
  · exact h i
  · exact le_rfl

theorem le_total {ι : Type} [Fintype ι] {amount : ι → ℤ} (h : ∀ i, 0 ≤ amount i) (a : ι → κ)
    (i : ι) : amount i ≤ total amount a (a i) := by
  have hle := Finset.single_le_sum (f := fun j => if a j = a i then amount j else 0) (fun j _ => by
      split_ifs
      · exact h j
      · exact le_rfl) (Finset.mem_univ i)
  simpa [total] using hle

theorem total_pos_iff {ι : Type} [Fintype ι] {amount : ι → ℤ} (h : ∀ i, 0 ≤ amount i) {a : ι → κ}
    {k : κ} : 0 < total amount a k ↔ ∃ i, a i = k ∧ 0 < amount i := by
  constructor
  · intro hp
    obtain ⟨i, -, hi⟩ := Finset.exists_lt_of_sum_lt (f := fun _ => (0 : ℤ)) (s := Finset.univ)
      (by simpa [total] using hp)
    by_cases hk : a i = k
    · exact ⟨i, hk, by simpa [hk] using hi⟩
    · simp [hk] at hi
  · rintro ⟨i, rfl, hi⟩
    exact hi.trans_le (le_total h a i)

def used [Fintype κ] (c : κ → ℤ) : ℤ := ∑ k, if 0 < c k then 1 else 0

theorem used_shift [Fintype κ] (hne : source ≠ target) (hs : 1 ≤ c source)
    (htr : 0 ≤ c target) :
    used (shift c source target 1) =
      used c - (if c source = 1 then 1 else 0) + (if c target = 0 then 1 else 0) := by
  -- the two parts are changed one after the other
  let middle : κ → ℤ := fun k => if k = target then (if 0 < c k then 1 else 0) else
    if 0 < shift c source target 1 k then 1 else 0
  have h1 : ∑ k, middle k = used c - (if 0 < c source then 1 else 0) + middle source := by
    refine sum_eq_of_off source fun k hk => ?_
    by_cases ht : k = target
    · simp [middle, ht]
    · simp [middle, ht, shift_of_ne hk ht]
  have h2 : used (shift c source target 1) =
      ∑ k, middle k - middle target + (if 0 < shift c source target 1 target then 1 else 0) := by
    refine sum_eq_of_off target fun k hk => ?_
    simp [middle, hk]
  rw [h2, h1]
  simp only [middle, if_neg hne, if_pos rfl, shift_source hne, shift_target hne]
  split_ifs <;> omega

omit [DecidableEq κ] in
theorem used_eq_card [Fintype κ] (c : κ → ℤ) :
    used c = ((Finset.univ.filter fun k => 0 < c k).card : ℤ) := by
  simp [used]

end counts

end Reassign
