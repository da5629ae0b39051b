import Mathlib.Tactic

/-!
# Guarded runs

A system takes labelled steps; a run is guarded where every step meets a condition on the state it
starts from and its label. An invariant that guarded steps keep holds in every state of a guarded
run, and what the invariant keeps from then on stays as it is.
-/

namespace GuardedRuns

variable {σ ε : Type} {step : σ → ε → Option σ} {Meets : σ → ε → Prop}

inductive Run (step : σ → ε → Option σ) (Meets : σ → ε → Prop) (s : σ) : σ → Prop where
  | refl : Run step Meets s s
  | snoc {t u : σ} {e : ε} (h : Run step Meets s t) (hmeets : Meets t e)
      (hstep : step t e = some u) : Run step Meets s u

namespace Run

/-- What every guarded step preserves holds along the run. -/
theorem invariant {P : σ → Prop}
    (hP : ∀ s e s', P s → Meets s e → step s e = some s' → P s') {s t : σ} (hs : P s)
    (h : Run step Meets s t) : P t := by
  induction h with
  | refl => exact hs
  | snoc _ hmeets hstep ih => exact hP _ _ _ ih hmeets hstep

theorem keeps {α : Type} {P : σ → Prop} {f : σ → α} {Q : α → Prop}
    (hP : ∀ s e s', P s → Meets s e → step s e = some s' → P s')
    (hf : ∀ s e s', P s → Q (f s) → Meets s e → step s e = some s' → f s' = f s) {s t : σ}
    (hs : P s) (hq : Q (f s)) (h : Run step Meets s t) : f t = f s := by
  have hb : P t ∧ f t = f s := by
    induction h with
    | refl => exact ⟨hs, rfl⟩
    | snoc _ hmeets hstep ih =>
      obtain ⟨ht, heq⟩ := ih
      refine ⟨hP _ _ _ ht hmeets hstep, ?_⟩
      rw [hf _ _ _ ht (heq ▸ hq) hmeets hstep, heq]
  exact hb.2

end Run

def exec (step : σ → ε → Option σ) (Meets : σ → ε → Prop) [∀ s e, Decidable (Meets s e)] :
    σ → List ε → Option σ
  | s, [] => some s
  | s, e :: es => if Meets s e then (step s e).bind fun t => exec step Meets t es else none

theorem run_of_exec [∀ s e, Decidable (Meets s e)] {es : List ε} :
    ∀ {s t : σ}, exec step Meets s es = some t → Run step Meets s t := by
  suffices h : ∀ {s t u : σ}, Run step Meets s t → exec step Meets t es = some u →
      Run step Meets s u from fun {s t} he => h .refl he
  induction es with
  | nil =>
    intro s t u h he
    cases he
    exact h
  | cons e es ih =>
    intro s t u h he
    unfold exec at he
    split at he
    · next hmeets =>
      obtain ⟨v, hv, he⟩ := Option.bind_eq_some_iff.mp he
      exact ih (h.snoc hmeets hv) he
    · cases he

end GuardedRuns
