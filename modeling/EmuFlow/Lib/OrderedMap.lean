import Mathlib.Algebra.BigOperators.Group.List.Basic
import Mathlib.Tactic

/-!
# Accumulating maps

A map kept as a list in the order of its keys, whose entries accumulate by an operation `op`. `lt`
is the order of the keys; the facts below do not depend on it.
-/

namespace OrderedMap

open List

variable {κ M : Type} [DecidableEq κ]

/-- `map[key] += value`, where `op` adds. -/
def add (op : M → M → M) (lt : κ → κ → Bool) (key : κ) (value : M) : List (κ × M) → List (κ × M)
  | [] => [(key, value)]
  | entry :: rest =>
    if key = entry.1 then (key, op entry.2 value) :: rest
    else if lt key entry.1 then (key, value) :: entry :: rest
    else entry :: add op lt key value rest

variable {op : M → M → M} {lt : κ → κ → Bool} {key : κ} {value : M} {l : List (κ × M)}

theorem mem_keys_add {k : κ} :
    k ∈ (add op lt key value l).map Prod.fst ↔ k = key ∨ k ∈ l.map Prod.fst := by
  induction l with
  | nil => simp [add]
  | cons entry rest ih =>
    rw [add]
    split_ifs with hk hlt
    · subst hk
      simp
    · simp
    · rw [map_cons, mem_cons, ih, map_cons, mem_cons]
      tauto

/-- Only the operation on the entries that are there matters. -/
theorem add_congr {op' : M → M → M} (h : ∀ en ∈ l, op en.2 value = op' en.2 value) :
    add op lt key value l = add op' lt key value l := by
  induction l with
  | nil => rfl
  | cons en rest ih =>
    rw [add, add, h en mem_cons_self, ih fun e he => h e (mem_cons_of_mem _ he)]

theorem forall_add {P : M → Prop} (hl : ∀ e ∈ l, P e.2) (hv : P value)
    (hop : ∀ e ∈ l, P (op e.2 value)) : ∀ e ∈ add op lt key value l, P e.2 := by
  induction l with
  | nil => simpa [add] using hv
  | cons e rest ih =>
    rw [forall_mem_cons] at hl hop
    rw [add]
    split_ifs with hk hlt
    · exact forall_mem_cons.mpr ⟨hop.1, hl.2⟩
    · exact forall_mem_cons.mpr ⟨hv, forall_mem_cons.mpr hl⟩
    · exact forall_mem_cons.mpr ⟨hl.1, ih hl.2 hop.2⟩

variable (lt key) in
theorem sum_add_le (f : M → ℚ) (hop : ∀ e ∈ l, f (op e.2 value) ≤ f e.2 + f value) :
    ((add op lt key value l).map fun e => f e.2).sum ≤
      (l.map fun e => f e.2).sum + f value := by
  induction l with
  | nil => simp [add]
  | cons e rest ih =>
    rw [forall_mem_cons] at hop
    rw [add]
    split_ifs with hk hlt
    · simp only [map_cons, sum_cons]
      linarith [hop.1]
    · simp only [map_cons, sum_cons]
      linarith
    · simp only [map_cons, sum_cons]
      linarith [ih hop.2]

theorem sum_add [AddCommMonoid M] {N : Type} [AddCommMonoid N] (f : κ → M →+ N) (value : M) :
    ((add (· + ·) lt key value l).map fun e => f e.1 e.2).sum =
      (l.map fun e => f e.1 e.2).sum + f key value := by
  induction l with
  | nil => simp [add]
  | cons e rest ih =>
    rw [add]
    split_ifs with hk hlt
    · subst hk
      simp only [map_cons, sum_cons, map_add]
      abel
    · simp only [map_cons, sum_cons]
      abel
    · rw [map_cons, sum_cons, ih, map_cons, sum_cons, add_assoc]

end OrderedMap
