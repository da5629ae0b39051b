import EmuFlow.Lib.Check
import Mathlib.Tactic

/-!
# Worklist search

A stack of work items; an item with a mark is expanded the first time its mark is seen, an item
without one always. Expanding an item yields further items and some output, or raises.
-/

namespace Worklist

open Check List

variable {ε α β κ : Type} [DecidableEq κ]

structure Search (ε α β κ : Type) where
  mark : α → Option κ
  /-- The items to push, in this order, and the output. -/
  expand : α → Except ε (List α × List β)

def Search.seen (s : Search ε α β κ) (visited : List κ) (a : α) : Bool :=
  match s.mark a with
  | some k => decide (k ∈ visited)
  | none => false

/-- Work off the stack, for at most `fuel` items; the marks seen and the output. -/
def Search.loop (s : Search ε α β κ) : Nat → List α → List κ → Except ε (List κ × List β)
  | 0, _, visited => .ok (visited, [])
  | _ + 1, [], visited => .ok (visited, [])
  | fuel + 1, a :: work, visited =>
    if s.seen visited a then s.loop fuel work visited
    else do
      let next ← s.expand a
      let rest ← s.loop fuel (next.1.reverse ++ work) ((s.mark a).toList ++ visited)
      return (rest.1, next.2 ++ rest.2)

/-- The output of a search from `start`, whose last item is taken first. -/
def Search.run (s : Search ε α β κ) (fuel : Nat) (start : List α) : Except ε (List β) := do
  let result ← s.loop fuel start.reverse []
  return result.2

/-- An item that a search from `start` comes to. -/
inductive Search.Reached (s : Search ε α β κ) (start : List α) : α → Prop
  | start {a : α} (h : a ∈ start) : Reached s start a
  | step {a b : α} {next : List α} {out : List β} (h : Reached s start a)
      (hexpand : s.expand a = .ok (next, out)) (hb : b ∈ next) : Reached s start b

/-- Items with one mark expand alike, and an item without a mark has nothing to push. -/
structure Search.Uniform (s : Search ε α β κ) : Prop where
  same : ∀ {a b : α} {k : κ}, s.mark a = some k → s.mark b = some k → s.expand a = s.expand b
  leaf : ∀ {a : α} {next : List α} {out : List β}, s.mark a = none →
    s.expand a = .ok (next, out) → next = []

variable {s : Search ε α β κ} {start work : List α} {visited seen : List κ} {out : List β}
  {fuel : Nat}

theorem loop_sound (hw : ∀ a ∈ work, s.Reached start a)
    (h : s.loop fuel work visited = .ok (seen, out)) {b : β} (hb : b ∈ out) :
    ∃ a next outs, s.Reached start a ∧ s.expand a = .ok (next, outs) ∧ b ∈ outs := by
  induction fuel generalizing work visited seen out with
  | zero =>
    obtain ⟨-, rfl⟩ := Prod.mk.inj (Except.ok.inj h)
    exact absurd hb not_mem_nil
  | succ fuel ih =>
    cases work with
    | nil =>
      obtain ⟨-, rfl⟩ := Prod.mk.inj (Except.ok.inj h)
      exact absurd hb not_mem_nil
    | cons a work =>
      unfold Search.loop at h
      have hr : ∀ x ∈ work, s.Reached start x := fun x hx => hw x (mem_cons_of_mem a hx)
      split at h
      · exact ih hr h hb
      · simp only [bind_eq_ok] at h
        obtain ⟨⟨next, outs⟩, hexpand, ⟨seen', out'⟩, hl, h⟩ := h
        obtain ⟨-, rfl⟩ := Prod.mk.inj (Except.ok.inj h)
        have ha := hw a mem_cons_self
        rcases List.mem_append.mp hb with hb | hb
        · exact ⟨a, next, outs, ha, hexpand, hb⟩
        · refine ih (fun x hx => ?_) hl hb
          rcases List.mem_append.mp hx with hx | hx
          · exact .step ha hexpand (mem_reverse.mp hx)
          · exact hr x hx

theorem of_loop_eq_error {e : ε} (h : s.loop fuel work visited = .error e) :
    ∃ a, s.expand a = .error e := by
  induction fuel generalizing work visited with
  | zero => cases h
  | succ fuel ih =>
    cases work with
    | nil => cases h
    | cons a work =>
      unfold Search.loop at h
      split at h
      · exact ih h
      · rcases bind_eq_error.mp h with h | ⟨next, -, h⟩
        · exact ⟨a, h⟩
        · rcases bind_eq_error.mp h with h | ⟨rest, -, h⟩
          · exact ih h
          · cases h

theorem of_run_eq_error {e : ε} (h : s.run fuel start = .error e) : ∃ a, s.expand a = .error e := by
  rcases bind_eq_error.mp h with h | ⟨result, -, h⟩
  · exact of_loop_eq_error h
  · cases h

/-! ## completeness -/

/-- The item has been expanded, or another one with its mark has. -/
def Done (s : Search ε α β κ) (seen : List κ) (out : List β) (a : α) : Prop :=
  match s.mark a with
  | some k => k ∈ seen
  | none => ∃ next outs, s.expand a = .ok (next, outs) ∧ ∀ b ∈ outs, b ∈ out

omit [DecidableEq κ] in
theorem Done.mono {seen' : List κ} {out' : List β} {a : α} (h : Done s seen out a)
    (hs : ∀ k ∈ seen, k ∈ seen') (ho : ∀ b ∈ out, b ∈ out') : Done s seen' out' a := by
  unfold Done at h ⊢
  split
  · next k hk =>
    rw [hk] at h
    exact hs k h
  · next hk =>
    rw [hk] at h
    obtain ⟨next, outs, hexpand, ha⟩ := h
    exact ⟨next, outs, hexpand, fun b hb => ho b (ha b hb)⟩

def Closed (s : Search ε α β κ) (before seen : List κ) (out : List β) : Prop :=
  ∀ k ∈ seen, k ∈ before ∨ ∃ a next outs, s.mark a = some k ∧ s.expand a = .ok (next, outs) ∧
    (∀ b ∈ outs, b ∈ out) ∧ ∀ x ∈ next, Done s seen out x

/-- What is left to push: a mark of the universe that was not seen pushes at most `weight` items. -/
def potential (univ : List κ) (weight : Nat) (visited : List κ) : Nat :=
  weight * univ.countP fun k => k ∉ visited

theorem potential_cons {univ : List κ} {weight : Nat} {k : κ} (hk : k ∈ univ) (hv : k ∉ visited) :
    potential univ weight (k :: visited) + weight ≤ potential univ weight visited := by
  have hc : univ.countP (fun x => x ∉ k :: visited) + 1 ≤ univ.countP fun x => x ∉ visited := by
    induction univ with
    | nil => exact absurd hk not_mem_nil
    | cons x univ ih =>
      have hm : univ.countP (fun x => x ∉ k :: visited) ≤ univ.countP fun x => x ∉ visited := by
        refine countP_mono_left fun y _ hy => ?_
        simp only [mem_cons, not_or, decide_eq_true_eq] at hy ⊢
        exact hy.2
      rw [countP_cons, countP_cons]
      by_cases hx : x = k
      · have h₁ : decide (x ∉ k :: visited) = false := by simp [hx]
        have h₂ : decide (x ∉ visited) = true := by simp [hx, hv]
        rw [h₁, h₂]
        simp only [Bool.false_eq_true, if_false, if_true]
        omega
      · have hs : decide (x ∉ k :: visited) = decide (x ∉ visited) := by simp [hx]
        have := ih ((mem_cons.mp hk).resolve_left (Ne.symm hx))
        rw [hs]
        omega
  unfold potential
  calc weight * univ.countP (fun x => x ∉ k :: visited) + weight
      = weight * (univ.countP (fun x => x ∉ k :: visited) + 1) := by ring
    _ ≤ weight * univ.countP fun x => x ∉ visited := Nat.mul_le_mul_left _ hc

section

variable {univ : List κ} {weight : Nat} (hu : s.Uniform)
  (huniv : ∀ {a : α} {k : κ}, s.Reached start a → s.mark a = some k → k ∈ univ)
  (hweight : ∀ {a : α} {next : List α} {outs : List β}, s.expand a = .ok (next, outs) →
    next.length ≤ weight)
include hu huniv hweight

theorem loop_complete (hwr : ∀ a ∈ work, s.Reached start a)
    (hfl : work.length + potential univ weight visited ≤ fuel)
    (h : s.loop fuel work visited = .ok (seen, out)) :
    (∀ k ∈ visited, k ∈ seen) ∧ (∀ a ∈ work, Done s seen out a) ∧ Closed s visited seen out := by
  induction fuel generalizing work visited seen out with
  | zero =>
    cases h
    have hem : work = [] := length_eq_zero_iff.mp (by omega)
    rw [hem]
    exact ⟨fun k hk => hk, fun a ha => absurd ha not_mem_nil, fun k hk => Or.inl hk⟩
  | succ fuel ih =>
    cases work with
    | nil =>
      cases h
      exact ⟨fun k hk => hk, fun a ha => absurd ha not_mem_nil, fun k hk => Or.inl hk⟩
    | cons a work =>
      unfold Search.loop at h
      rw [length_cons] at hfl
      have ha := hwr a mem_cons_self
      have hrs : ∀ x ∈ work, s.Reached start x := fun x hx => hwr x (mem_cons_of_mem a hx)
      split at h
      · next hsn =>
        obtain ⟨hsb, hdn, hcl⟩ := ih hrs (by omega) h
        refine ⟨hsb, forall_mem_cons.mpr ⟨?_, hdn⟩, hcl⟩
        unfold Search.seen at hsn
        unfold Done
        split at hsn
        · next k hk => exact hsb k (of_decide_eq_true hsn)
        · cases hsn
      · next hnw =>
        simp only [bind_eq_ok] at h
        obtain ⟨⟨next, outs⟩, hexpand, ⟨seen', out'⟩, hlp, h⟩ := h
        cases h
        have hot : ∀ b ∈ outs, b ∈ outs ++ out' := fun b hb => mem_append_left _ hb
        have hou' : ∀ b ∈ out', b ∈ outs ++ out' := fun b hb => mem_append_right _ hb
        cases hmr : s.mark a with
        | none =>
          -- an item without a mark pushes nothing
          obtain rfl := hu.leaf hmr hexpand
          rw [hmr] at hlp
          have hrs' : ∀ x ∈ ([] : List α).reverse ++ work, s.Reached start x := by
            simpa using hrs
          obtain ⟨hsb, hdn, hcl⟩ := ih hrs' (by simp; omega) hlp
          refine ⟨hsb, forall_mem_cons.mpr ⟨?_, fun x hx => ?_⟩, fun k hk => ?_⟩
          · unfold Done
            rw [hmr]
            exact ⟨[], outs, hexpand, hot⟩
          · exact (hdn x hx).mono (fun k hk => hk) hou'
          · rcases hcl k hk with hk | ⟨b, next, outs', hb, hbx, hbt, hnx⟩
            · exact Or.inl hk
            · exact Or.inr ⟨b, next, outs', hb, hbx, fun c hc => hou' c (hbt c hc),
                fun x hx => (hnx x hx).mono (fun k hk => hk) hou'⟩
        | some k =>
          have hk : k ∉ visited := by
            unfold Search.seen at hnw
            rw [hmr] at hnw
            simpa using hnw
          rw [hmr] at hlp
          have hpt : potential univ weight (k :: visited) + weight ≤ potential univ weight
            visited :=
            potential_cons (huniv ha hmr) hk
          have hps : ∀ x ∈ next.reverse ++ work, s.Reached start x := by
            intro x hx
            rcases List.mem_append.mp hx with hx | hx
            · exact .step ha hexpand (mem_reverse.mp hx)
            · exact hrs x hx
          have hln := hweight hexpand
          obtain ⟨hsb, hdn, hcl⟩ := ih hps (by simp; omega) hlp
          have hdn' : ∀ x ∈ next.reverse ++ work, Done s seen' (outs ++ out') x :=
            fun x hx => (hdn x hx).mono (fun k hk => hk) hou'
          refine ⟨fun j hj => hsb j (mem_cons_of_mem k hj),
            forall_mem_cons.mpr ⟨?_, fun x hx => hdn' x (mem_append_right _ hx)⟩,
            fun j hj => ?_⟩
          · unfold Done
            rw [hmr]
            exact hsb k mem_cons_self
          · rcases hcl j hj with hj | ⟨b, next', outs', hb, hbx, hbt, hnx⟩
            · rcases mem_cons.mp hj with rfl | hj
              · exact Or.inr ⟨a, next, outs, hmr, hexpand, hot, fun x hx =>
                  hdn' x (mem_append_left _ (mem_reverse.mpr hx))⟩
              · exact Or.inl hj
            · exact Or.inr ⟨b, next', outs', hb, hbx, fun c hc => hou' c (hbt c hc),
                fun x hx => (hnx x hx).mono (fun k hk => hk) hou'⟩

/-- The outputs are those of all that is reached. -/
theorem run_spec
    (hf : start.length + weight * univ.length ≤ fuel) (h : s.run fuel start = .ok out) :
    (∀ a, s.Reached start a → ∃ next outs, s.expand a = .ok (next, outs) ∧ ∀ b ∈ outs, b ∈ out) ∧
      ∀ b ∈ out, ∃ a next outs, s.Reached start a ∧ s.expand a = .ok (next, outs) ∧ b ∈ outs := by
  obtain ⟨⟨seen, out'⟩, hl, h⟩ := bind_eq_ok.mp h
  cases h
  constructor
  · have hp : potential univ weight ([] : List κ) ≤ weight * univ.length :=
      Nat.mul_le_mul_left _ countP_le_length
    obtain ⟨-, hd, hc⟩ := loop_complete hu huniv hweight
      (fun a ha => .start (mem_reverse.mp ha)) (by rw [length_reverse]; omega) hl
    -- every reached item is done, by the closure of the marks seen
    have hs : ∀ a, Done s seen out' a →
        ∃ next outs, s.expand a = .ok (next, outs) ∧ (∀ b ∈ outs, b ∈ out') ∧
          ∀ x ∈ next, Done s seen out' x := by
      intro a ha
      unfold Done at ha
      split at ha
      · next k hk =>
        rcases hc k ha with hn | ⟨b, next, outs, hb, hexpand, ho, hnx⟩
        · exact absurd hn not_mem_nil
        · exact ⟨next, outs, (hu.same hk hb).trans hexpand, ho, hnx⟩
      · next hk =>
        obtain ⟨next, outs, hexpand, ho⟩ := ha
        refine ⟨next, outs, hexpand, ho, fun x hx => ?_⟩
        rw [hu.leaf hk hexpand] at hx
        exact absurd hx not_mem_nil
    have hr : ∀ a, s.Reached start a → Done s seen out' a := by
      intro a ha
      induction ha with
      | start hm => exact hd _ (mem_reverse.mpr hm)
      | step _ hexpand hb ih =>
        obtain ⟨next, outs, he', -, hnx⟩ := hs _ ih
        rw [hexpand] at he'
        cases he'
        exact hnx _ hb
    intro a ha
    obtain ⟨next, outs, hexpand, ho, -⟩ := hs a (hr a ha)
    exact ⟨next, outs, hexpand, ho⟩
  · intro b hb
    exact loop_sound (fun a ha => .start (mem_reverse.mp ha)) hl hb

end

end Worklist
