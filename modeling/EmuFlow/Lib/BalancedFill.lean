import Mathlib.Algebra.Order.BigOperators.Group.Finset
import Mathlib.Data.Fintype.BigOperators

/-!
# Balanced filling of groups

Items come in classes, and no group takes two items of a class. An item goes to a group of least
load that its class has not used. Then loads differ by at most one between classes, so groups of a
capacity are enough as soon as their number is that of the largest class and they hold all items.
-/

namespace BalancedFill

open Finset

variable {n : ℕ} {start load : Fin n → ℕ} {used : Finset (Fin n)}

def Balanced (load : Fin n → ℕ) : Prop := ∀ a b, load a ≤ load b + 1

theorem balanced_const (k : ℕ) : Balanced fun _ : Fin n => k := fun _ _ => Nat.le_succ k

theorem Balanced.pos (h : Balanced load) (hs : n ≤ ∑ a, load a) (a : Fin n) : 0 < load a := by
  by_contra hz
  have hle : ∀ b, load b ≤ 1 := fun b => (h b a).trans (by omega)
  have hlt : ∑ b, load b < ∑ _b : Fin n, 1 :=
    sum_lt_sum (fun b _ => hle b) ⟨a, mem_univ a, by omega⟩
  have ho : ∑ _b : Fin n, 1 = n := by simp
  omega

structure InClass (start load : Fin n → ℕ) (used : Finset (Fin n)) : Prop where
  used_eq : ∀ a ∈ used, load a = start a + 1
  unused_eq : ∀ a ∉ used, load a = start a
  least : ∀ a ∈ used, ∀ b ∉ used, start a ≤ start b

theorem inClass_start (start : Fin n → ℕ) : InClass start start ∅ where
  used_eq := by simp
  unused_eq := fun _ _ => rfl
  least := by simp

theorem InClass.place (h : InClass start load used) {a : Fin n} (ha : a ∉ used)
    (hl : ∀ b ∉ used, load a ≤ load b) :
    InClass start (Function.update load a (load a + 1)) (insert a used) where
  used_eq := by
    intro b hb
    by_cases hba : b = a
    · subst hba
      rw [Function.update_self, h.unused_eq b ha]
    · rw [Function.update_of_ne hba]
      exact h.used_eq b ((mem_insert.mp hb).resolve_left hba)
  unused_eq := by
    intro b hb
    rw [mem_insert, not_or] at hb
    rw [Function.update_of_ne hb.1]
    exact h.unused_eq b hb.2
  least := by
    intro b hb c hc
    rw [mem_insert, not_or] at hc
    rcases mem_insert.mp hb with rfl | hb
    · rw [← h.unused_eq b ha, ← h.unused_eq c hc.2]
      exact hl c hc.2
    · exact h.least b hb c hc.2

theorem InClass.balanced (h : InClass start load used) (hs : Balanced start) :
    Balanced load := by
  intro a b
  have hab := hs a b
  by_cases ha : a ∈ used <;> by_cases hb : b ∈ used
  · rw [h.used_eq a ha, h.used_eq b hb]
    omega
  · have := h.least a ha b hb
    rw [h.used_eq a ha, h.unused_eq b hb]
    omega
  · rw [h.unused_eq a ha, h.used_eq b hb]
    omega
  · rw [h.unused_eq a ha, h.unused_eq b hb]
    omega

/-- **A group is open**: were all unused groups full, the used ones would be full as well. -/
theorem InClass.exists_open (h : InClass start load used) (hst : Balanced start)
    (hu : used.card < n) {capacity : ℕ} (hsm : ∑ a, load a < n * capacity) :
    ∃ a ∉ used, load a < capacity := by
  by_contra hn
  simp only [not_exists, not_and, not_lt] at hn
  obtain ⟨b, hb⟩ : ∃ b, b ∉ used := by
    by_contra hal
    simp only [not_exists, not_not] at hal
    have hc : used.card = n := by
      rw [eq_univ_of_forall hal, card_univ, Fintype.card_fin]
    omega
  have hf : ∀ a, capacity ≤ load a := by
    intro a
    by_cases ha : a ∈ used
    · have hs := hn b hb
      rw [h.unused_eq b hb] at hs
      rw [h.used_eq a ha]
      exact hs.trans (hst b a)
    · exact hn a ha
  have hge : ∑ _a : Fin n, capacity ≤ ∑ a, load a := sum_le_sum fun a _ => hf a
  have hr : ∑ _a : Fin n, capacity = n * capacity := by simp
  omega

end BalancedFill
