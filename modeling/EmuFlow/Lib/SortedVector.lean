import Mathlib.Data.List.Sort
import Mathlib.Data.List.Lex
import Mathlib.Data.Rat.Defs
import Mathlib.Tactic

/-!
# Sorted vectors

The values of a finite family in ascending order, compared lexicographically. Where two lists of one
length differ first, from below, in how often they have some value, the one that has it less often
is the larger: so a change of a few values can be judged from these values alone.
-/

namespace SortedVector

open List

variable {α ι : Type} [LinearOrder α]

theorem lt_of_count_lt {l m : List α} (hl : l.Pairwise (· ≤ ·)) (hm : m.Pairwise (· ≤ ·))
    (hln : l.length = m.length) {v : α} (hb : ∀ w < v, l.count w = m.count w)
    (hv : m.count v < l.count v) : l < m := by
  induction l generalizing m with
  | nil => simp at hv
  | cons a l ih =>
    cases m with
    | nil => simp at hln
    | cons b m =>
      obtain ⟨hal, hl'⟩ := pairwise_cons.mp hl
      obtain ⟨hbm, hm'⟩ := pairwise_cons.mp hm
      have hav : a ≤ v := by
        have hmm : v ∈ a :: l := count_pos_iff.mp (by omega)
        rcases mem_cons.mp hmm with rfl | hmm
        · exact le_rfl
        · exact hal v hmm
      rcases lt_trichotomy a b with ha | rfl | ha
      · exact cons_lt_cons_iff.mpr (.inl ha)
      · refine cons_lt_cons_iff.mpr (.inr ⟨rfl, ih hl' hm' (by simpa using hln) ?_ ?_⟩)
        · intro w hw
          have := hb w hw
          rw [count_cons, count_cons] at this
          omega
        · rw [count_cons, count_cons] at hv
          omega
      -- `b` is below every element of `a :: l`, whose count of it is positive
      · exfalso
        have hc := hb b (ha.trans_le hav)
        rw [count_cons_self] at hc
        have hmm : b ∈ a :: l := count_pos_iff.mp (by omega)
        rcases mem_cons.mp hmm with rfl | hmm
        · exact lt_irrefl _ ha
        · exact absurd (hal b hmm) (not_le.mpr ha)

/-- The values of a family on the given indices, in ascending order. -/
def sorted (indices : List ι) (f : ι → α) : List α :=
  (indices.map f).insertionSort (· ≤ ·)

theorem sorted_perm (indices : List ι) (f : ι → α) : (sorted indices f).Perm (indices.map f) :=
  perm_insertionSort _ _

theorem pairwise_sorted (indices : List ι) (f : ι → α) : (sorted indices f).Pairwise (· ≤ ·) :=
  pairwise_insertionSort (· ≤ ·) _

@[simp] theorem length_sorted (indices : List ι) (f : ι → α) :
    (sorted indices f).length = indices.length := by
  rw [(sorted_perm indices f).length_eq, length_map]

def delta (changed : List ι) (f g : ι → α) (value : α) : ℤ :=
  (changed.countP fun i => g i = value) - changed.countP fun i => f i = value

section

variable {indices changed : List ι} {f g : ι → α} (rest : List ι)
  (hsplit : indices.Perm (changed ++ rest)) (hrest : ∀ i ∈ rest, g i = f i)
include rest hsplit hrest

theorem count_sub_count (value : α) :
    ((sorted indices g).count value : ℤ) - (sorted indices f).count value =
      delta changed f g value := by
  have hc : ∀ h : ι → α, (sorted indices h).count value =
      (changed.countP fun i => h i = value) + rest.countP fun i => h i = value := by
    intro h
    rw [(sorted_perm indices h).count_eq, (hsplit.map h).count_eq, map_append, count_append]
    simp only [List.count, countP_map, Function.comp_def]
    congr 1
  have hs : (rest.countP fun i => g i = value) = rest.countP fun i => f i = value :=
    countP_congr fun i hi => by rw [hrest i hi]
  rw [hc g, hc f, hs, delta]
  push_cast
  ring

/-- **A change judged by the changed entries**: where they first differ in how often they have some
value, the new vector is the larger if it has that value less often. -/
theorem sorted_lt_of_delta {value : α}
    (hb : ∀ w < value, delta changed f g w = 0) (hl : delta changed f g value < 0) :
    sorted indices f < sorted indices g := by
  have hc := count_sub_count rest hsplit hrest
  refine lt_of_count_lt (v := value) (pairwise_sorted _ _) (pairwise_sorted _ _) (by simp) ?_ ?_
  · intro w hw
    have := hc w
    rw [hb w hw] at this
    omega
  · have := hc value
    omega

end

theorem head_sorted {indices : List ι} {f : ι → α} {a : α} {l : List α}
    (h : sorted indices f = a :: l) : (∃ i ∈ indices, f i = a) ∧ ∀ i ∈ indices, a ≤ f i := by
  have hm : ∀ v, v ∈ a :: l ↔ ∃ i ∈ indices, f i = v := by
    intro v
    rw [← h, (sorted_perm indices f).mem_iff, mem_map]
  refine ⟨(hm a).mp mem_cons_self, fun i hi => ?_⟩
  have hp := pairwise_sorted indices f
  rw [h] at hp
  rcases mem_cons.mp ((hm (f i)).mpr ⟨i, hi, rfl⟩) with heq | hin
  · exact heq.ge
  · exact (pairwise_cons.mp hp).1 _ hin

theorem sorted_lt_of_head_lt {indices : List ι} {f g : ι → α} {v : α} (hne : indices ≠ [])
    (hf : ∃ i ∈ indices, f i = v) (hg : ∀ i ∈ indices, v < g i) :
    sorted indices f < sorted indices g := by
  cases hs : sorted indices f with
  | nil =>
    have := congrArg List.length hs
    simp only [length_sorted, length_nil, length_eq_zero_iff] at this
    exact absurd this hne
  | cons a l =>
    cases hsg : sorted indices g with
    | nil =>
      have := congrArg List.length hsg
      simp only [length_sorted, length_nil, length_eq_zero_iff] at this
      exact absurd this hne
    | cons b m =>
      refine cons_lt_cons_iff.mpr (.inl ?_)
      obtain ⟨i, hi, rfl⟩ := hf
      obtain ⟨⟨j, hj, rfl⟩, -⟩ := head_sorted hsg
      exact ((head_sorted hs).2 i hi).trans_lt (hg j hj)

end SortedVector
