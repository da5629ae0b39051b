import Mathlib.Tactic

/-!
# Delay lines

A register pipeline as the list of its stages, the input stage first. One clock moves every value
one stage on.
-/

namespace DelayLine

variable {α : Type}

def shift (input : α) (pipe : List α) : List α := (input :: pipe).take pipe.length

def output (default : α) (pipe : List α) : α := (pipe[pipe.length - 1]?).getD default

@[simp] theorem length_shift {input : α} {pipe : List α} :
    (shift input pipe).length = pipe.length := by
  simp [shift]

theorem shift_zero {input : α} {pipe : List α} (h : 0 < pipe.length) :
    (shift input pipe)[0]? = some input := by
  simp [shift, h]

theorem shift_succ {input : α} {pipe : List α} {j : Nat} (h : j + 1 < pipe.length) :
    (shift input pipe)[j + 1]? = pipe[j]? := by
  simp [shift, h]

theorem output_eq {default a : α} {pipe : List α} {n : Nat} (hl : pipe.length = n + 1)
    (h : pipe[n]? = some a) : output default pipe = a := by
  have hn : pipe.length - 1 = n := by omega
  rw [output, hn, h, Option.getD_some]

/-- The output is the input of as many steps ago. -/
theorem output_run {default : α} (pipe : Nat → List α) (input : Nat → α) {t n : Nat}
    (hln : (pipe t).length = n + 1)
    (hs : ∀ s, t ≤ s → s ≤ t + n → pipe (s + 1) = shift (input s) (pipe s)) :
    output default (pipe (t + n + 1)) = input t := by
  have hst : ∀ j ≤ n, (pipe (t + j + 1)).length = n + 1 ∧ (pipe (t + j + 1))[j]? =
      some (input t) := by
    intro j
    induction j with
    | zero =>
      intro _
      rw [Nat.add_zero, hs t le_rfl (by omega), length_shift, shift_zero (by omega)]
      exact ⟨hln, rfl⟩
    | succ j ih =>
      intro hj
      obtain ⟨hl, hv⟩ := ih (by omega)
      rw [show t + (j + 1) + 1 = t + j + 1 + 1 by omega, hs (t + j + 1) (by omega) (by omega),
        length_shift, shift_succ (by omega)]
      exact ⟨hl, hv⟩
  obtain ⟨hl, hv⟩ := hst n le_rfl
  exact output_eq hl hv

end DelayLine
