import EmuFlow.Lib.Check
import Mathlib.Data.List.Forall2

/-!
# Two runs side by side

Two checked computations that take the same branches: both raise, with the same error, or both
return, with related values. The rules follow the way a computation is put together.
-/

namespace Check

open List

variable {ε α β γ δ : Type}

/-- Both runs raise the same error, or return values that `R` relates. -/
inductive Lockstep (R : α → β → Prop) : Except ε α → Except ε β → Prop where
  | raised (e : ε) : Lockstep R (.error e) (.error e)
  | returned {a : α} {b : β} (h : R a b) : Lockstep R (.ok a) (.ok b)

namespace Lockstep

variable {x : Except ε α} {y : Except ε β}

theorem mono {R S : α → β → Prop} (h : Lockstep R x y)
    (hr : ∀ a b, R a b → S a b) : Lockstep S x y := by
  cases h with
  | raised e => exact .raised e
  | returned h => exact .returned (hr _ _ h)

theorem bind {R : α → β → Prop} {S : γ → δ → Prop}
    {f : α → Except ε γ} {g : β → Except ε δ} (hx : Lockstep R x y)
    (hf : ∀ a b, R a b → Lockstep S (f a) (g b)) : Lockstep S (x >>= f) (y >>= g) := by
  cases hx with
  | raised e => exact .raised e
  | returned h => exact hf _ _ h

theorem bind_same {S : γ → δ → Prop} (x : Except ε α) {f : α → Except ε γ} {g : α → Except ε δ}
    (hf : ∀ a, x = .ok a → Lockstep S (f a) (g a)) : Lockstep S (x >>= f) (x >>= g) := by
  cases x with
  | error e => exact .raised e
  | ok a => exact hf a rfl

theorem mapM {R : β → γ → Prop} {f : α → Except ε β} {g : α → Except ε γ} :
    ∀ {l : List α}, (∀ a ∈ l, Lockstep R (f a) (g a)) →
      Lockstep (Forall₂ R) (l.mapM f) (l.mapM g)
  | [], _ => by
    rw [mapM_nil, mapM_nil]
    exact .returned .nil
  | a :: l, h => by
    rw [mapM_cons, mapM_cons]
    refine bind (h a mem_cons_self) fun b c hb => ?_
    refine bind (mapM fun x hx => h x (mem_cons_of_mem a hx)) fun bs cs hs => ?_
    exact .returned (.cons hb hs)

/-- Related turns have related results. -/
theorem foldlM {R : β → γ → Prop} {f : β → α → Except ε β} {g : γ → α → Except ε γ} :
    ∀ {l : List α} {b : β} {c : γ}, (∀ a ∈ l, ∀ b c, R b c → Lockstep R (f b a) (g c a)) →
      R b c → Lockstep R (l.foldlM f b) (l.foldlM g c)
  | [], b, c, _, h => by
    rw [foldlM_nil, foldlM_nil]
    exact .returned h
  | a :: l, b, c, hs, h => by
    rw [foldlM_cons, foldlM_cons]
    refine bind (hs a mem_cons_self b c h) fun b' c' h' => ?_
    exact foldlM (fun x hx => hs x (mem_cons_of_mem a hx)) h'

theorem exists_of_eq_ok {R : α → β → Prop} {a : α}
    (h : Lockstep R x y) (hx : x = .ok a) : ∃ b, y = .ok b ∧ R a b := by
  subst hx
  cases h with
  | returned h => exact ⟨_, rfl, h⟩

end Lockstep

end Check
