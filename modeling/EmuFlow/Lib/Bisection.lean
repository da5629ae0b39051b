import Mathlib.Order.Basic
import Mathlib.Tactic

/-!
# Bisection

A search for the least point with a property, asked of an oracle point by point. Nothing is assumed
of the oracle: a bracket keeps what its answers have shown so far.
-/

namespace Bisection

variable {feasible asked : ℕ → Prop} {least low high middle : ℕ}

/-- What is known of the points asked while a search stands between `low` and `high`. -/
structure Bracket (feasible asked : ℕ → Prop) (least low high : ℕ) : Prop where
  least_le : least ≤ low
  low_le : low ≤ high
  high_asked : asked high
  high_feasible : feasible high
  low_asked : least < low → asked (low - 1)
  infeasible : ∀ n, asked n → n < high → ¬ feasible n

def Ask (asked : ℕ → Prop) (middle : ℕ) (n : ℕ) : Prop := n = middle ∨ asked n

theorem Bracket.lower (h : Bracket feasible asked least low high) (hl : low ≤ middle)
    (hh : middle < high) (hm : feasible middle) :
    Bracket feasible (Ask asked middle) least low middle where
  least_le := h.least_le
  low_le := hl
  high_asked := .inl rfl
  high_feasible := hm
  low_asked hlt := .inr (h.low_asked hlt)
  infeasible n hn hlt := by
    rcases hn with rfl | hn
    · exact absurd hlt (lt_irrefl n)
    · exact h.infeasible n hn (hlt.trans hh)

theorem Bracket.raise (h : Bracket feasible asked least low high) (hl : low ≤ middle)
    (hh : middle < high) (hm : ¬ feasible middle) :
    Bracket feasible (Ask asked middle) least (middle + 1) high where
  least_le := (h.least_le.trans hl).trans (Nat.le_succ middle)
  low_le := hh
  high_asked := .inr h.high_asked
  high_feasible := h.high_feasible
  low_asked _ := .inl rfl
  infeasible n hn hlt := by
    rcases hn with rfl | hn
    · exact hm
    · exact h.infeasible n hn hlt

theorem Bracket.start (hle : least ≤ high) (hh : feasible high) :
    Bracket feasible (Ask (fun _ => False) high) least least high where
  least_le := le_rfl
  low_le := hle
  high_asked := .inl rfl
  high_feasible := hh
  low_asked hlt := absurd hlt (lt_irrefl least)
  infeasible n hn hlt := by
    rcases hn with rfl | hn
    · exact absurd hlt (lt_irrefl n)
    · exact hn.elim

theorem middle_mem (h : low < high) : low ≤ (low + high) / 2 ∧ (low + high) / 2 < high := by
  omega

theorem Bracket.pred_infeasible (h : Bracket feasible asked least low low) (hlt : least < low) :
    asked (low - 1) ∧ ¬ feasible (low - 1) :=
  ⟨h.low_asked hlt, h.infeasible _ (h.low_asked hlt) (by omega)⟩

theorem Bracket.least_feasible (h : Bracket feasible asked least low low)
    (hm : ∀ m n, least ≤ m → m ≤ n → feasible m → feasible n) {n : ℕ} (hn : least ≤ n)
    (hf : feasible n) : low ≤ n := by
  by_contra hlt
  have hp := (h.pred_infeasible (by omega)).2
  exact hp (hm n (low - 1) hn (by omega) hf)

end Bisection
