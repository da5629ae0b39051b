import Mathlib.Data.Fintype.Basic
import Mathlib.Order.CompleteLattice.Finset
import Mathlib.Tactic

/-!
# Union-find

Disjoint sets as a forest with ranks and path compression. The ranks increase along the parents,
which is what makes every walk end.
-/

/-- A forest whose ranks increase along the parents. -/
structure UnionFind (α : Type) where
  parent : α → α
  rank : α → ℕ
  rank_lt : ∀ a, parent a ≠ a → rank a < rank (parent a)

namespace UnionFind

variable {α : Type}

/-- Every element by itself. -/
def init (α : Type) : UnionFind α where
  parent a := a
  rank _ := 0
  rank_lt _ h := absurd rfl h

/-! ## walks -/

section walks

/-- The walk from an element ends at `root`. -/
inductive EndsAt (parent : α → α) (root : α) : α → Prop where
  | root (h : parent root = root) : EndsAt parent root root
  | step {a : α} (h : parent a ≠ a) : EndsAt parent root (parent a) → EndsAt parent root a

variable {parent : α → α} {rank : α → ℕ} {root a b : α}

theorem EndsAt.isRoot (h : EndsAt parent root a) : parent root = root := by
  induction h with
  | root h => exact h
  | step _ _ ih => exact ih

theorem EndsAt.of_parent (h : EndsAt parent root (parent a)) : EndsAt parent root a := by
  by_cases ha : parent a = a
  · rwa [ha] at h
  · exact .step ha h

theorem EndsAt.up (h : EndsAt parent root a) (ha : a ≠ root) :
    EndsAt parent root (parent a) := by
  cases h with
  | root => exact absurd rfl ha
  | step _ h => exact h

theorem EndsAt.parent_ne (h : EndsAt parent root a) (ha : a ≠ root) : parent a ≠ a := by
  cases h with
  | root => exact absurd rfl ha
  | step h _ => exact h

theorem EndsAt.unique {root' : α} (h : EndsAt parent root a) (h' : EndsAt parent root' a) :
    root = root' := by
  induction h with
  | root h =>
    cases h' with
    | root => rfl
    | step hne => exact absurd h hne
  | step hne _ ih =>
    cases h' with
    | root h => exact absurd h hne
    | step _ h' => exact ih h'

theorem EndsAt.rank_lt (hrank : ∀ a, parent a ≠ a → rank a < rank (parent a))
    (h : EndsAt parent root a) (ha : a ≠ root) : rank a < rank root := by
  induction h with
  | root => exact absurd rfl ha
  | @step a hne _ ih =>
    by_cases hparent : parent a = root
    · rw [← hparent]
      exact hrank a hne
    · exact (hrank a hne).trans (ih hparent)

variable [DecidableEq α]

theorem EndsAt.update {root' : α} (h : EndsAt parent root' b) (ha : EndsAt parent root a)
    (hne : a ≠ root) : EndsAt (Function.update parent a root) root' b := by
  have hr : Function.update parent a root root = root := by
    rw [Function.update_of_ne hne.symm]
    exact ha.isRoot
  induction h with
  | root h =>
    refine .root ?_
    rw [Function.update_of_ne]
    · exact h
    · rintro rfl
      exact ha.parent_ne hne h
  | @step b hb hw ih =>
    by_cases hab : b = a
    · subst hab
      obtain rfl := ha.unique (.step hb hw)
      refine .step ?_ ?_ <;> rw [Function.update_self]
      · exact hne.symm
      · exact .root hr
    · refine .step ?_ ?_ <;> rw [Function.update_of_ne hab]
      · exact hb
      · exact ih

theorem EndsAt.attach {top bottom : α} (htop : parent top = top)
    (hb : parent bottom = bottom) (hne : top ≠ bottom) (h : EndsAt parent root a) :
    EndsAt (Function.update parent bottom top) (if root = bottom then top else root) a := by
  have ht' : Function.update parent bottom top top = top := by
    rw [Function.update_of_ne hne]
    exact htop
  induction h with
  | root h =>
    split_ifs with hr
    · subst hr
      refine .step ?_ ?_ <;> rw [Function.update_self]
      · exact hne
      · exact .root ht'
    · exact .root (by rwa [Function.update_of_ne hr])
  | @step a hs hw ih =>
    -- the element is no root, so it is not the one that moves
    have ha : a ≠ bottom := by
      rintro rfl
      exact hs hb
    refine .step ?_ ?_ <;> rw [Function.update_of_ne ha]
    · exact hs
    · exact ih

/-! ## find -/

/-- The first loop: up to the root. -/
def climb (parent : α → α) : ℕ → α → α
  | 0, a => a
  | fuel + 1, a => if a ≠ parent a then climb parent fuel (parent a) else a

def compress (root : α) : ℕ → (α → α) → α → α → α
  | 0, parent, _ => parent
  | fuel + 1, parent, a =>
    if a ≠ root then compress root fuel (Function.update parent a root) (parent a) else parent

theorem endsAt_climb (hrank : ∀ a, parent a ≠ a → rank a < rank (parent a)) {top : ℕ}
    (htop : ∀ a, rank a ≤ top) :
    ∀ (fuel : ℕ) (a : α), top < rank a + fuel → EndsAt parent (climb parent fuel a) a
  | 0, a, hf => absurd (htop a) (by omega)
  | fuel + 1, a, hf => by
    rw [climb]
    split_ifs with ha
    · have hlt := hrank a (Ne.symm ha)
      exact .step (Ne.symm ha) (endsAt_climb hrank htop fuel (parent a) (by omega))
    · exact .root (not_ne_iff.mp ha).symm

theorem rank_lt_update (hrank : ∀ a, parent a ≠ a → rank a < rank (parent a))
    (ha : EndsAt parent root a) (hne : a ≠ root) (b : α)
    (hb : Function.update parent a root b ≠ b) : rank b < rank
      (Function.update parent a root b) := by
  by_cases hab : b = a
  · subst hab
    rw [Function.update_self]
    exact ha.rank_lt hrank hne
  · rw [Function.update_of_ne hab] at hb ⊢
    exact hrank b hb

theorem compress_spec : ∀ (fuel : ℕ) {parent : α → α} {a : α},
    (∀ a, parent a ≠ a → rank a < rank (parent a)) → EndsAt parent root a →
      (∀ b, compress root fuel parent a b ≠ b → rank b < rank (compress root fuel parent a b)) ∧
        ∀ {b root'}, EndsAt parent root' b → EndsAt (compress root fuel parent a) root' b
  | 0, parent, a, hrank, _ => ⟨hrank, fun h => h⟩
  | fuel + 1, parent, a, hrank, ha => by
    rw [compress]
    split_ifs with hne
    · obtain ⟨hr', he⟩ := compress_spec fuel (rank_lt_update hrank ha hne)
        ((ha.up hne).update ha hne)
      exact ⟨hr', fun h => he (h.update ha hne)⟩
    · exact ⟨hrank, fun h => h⟩

end walks

variable [DecidableEq α] [Fintype α]

def steps (u : UnionFind α) : ℕ := Finset.univ.sup u.rank + 1

theorem endsAt_climb_parent (u : UnionFind α) (a : α) :
    EndsAt u.parent (climb u.parent u.steps (u.parent a)) a :=
  .of_parent (endsAt_climb u.rank_lt (fun b => Finset.le_sup (Finset.mem_univ b)) u.steps
    (u.parent a) (by rw [steps]; omega))

/-- `find`: the forest with the path compressed, and the root. -/
def find (u : UnionFind α) (a : α) : UnionFind α × α :=
  let root := climb u.parent u.steps (u.parent a)
  ({ parent := compress root u.steps u.parent a
     rank := u.rank
     rank_lt := (compress_spec u.steps u.rank_lt (u.endsAt_climb_parent a)).1 }, root)

def root (u : UnionFind α) (a : α) : α := (u.find a).2

variable {u : UnionFind α} {a b : α}

theorem endsAt_root (u : UnionFind α) (a : α) : EndsAt u.parent (u.root a) a :=
  u.endsAt_climb_parent a

theorem root_eq {r : α} (h : EndsAt u.parent r a) : u.root a = r := (u.endsAt_root a).unique h

@[simp] theorem parent_root (u : UnionFind α) (a : α) : u.parent (u.root a) = u.root a :=
  (u.endsAt_root a).isRoot

@[simp] theorem root_init (a : α) : (init α).root a = a := root_eq (.root rfl)

@[simp] theorem root_root (u : UnionFind α) (a : α) : u.root (u.root a) = u.root a :=
  root_eq (.root (u.parent_root a))

/-- `find` gives the root. -/
@[simp] theorem find_root (u : UnionFind α) (a b : α) : (u.find a).1.root b = u.root b :=
  root_eq ((compress_spec u.steps u.rank_lt (u.endsAt_climb_parent a)).2 (u.endsAt_root b))

/-! ## union -/

/-- The root `bottom` is hung below the root `top`, which is of no smaller rank. -/
def attach (u : UnionFind α) (top bottom : α) (htop : u.parent top = top) (hne : top ≠ bottom)
    (hle : u.rank bottom ≤ u.rank top) : UnionFind α where
  parent := Function.update u.parent bottom top
  rank :=
    if u.rank top = u.rank bottom then Function.update u.rank top (u.rank top + 1) else u.rank
  rank_lt a ha := by
    by_cases hab : a = bottom
    · subst hab
      rw [Function.update_self]
      split_ifs with hrank
      · rw [Function.update_self, Function.update_of_ne hne.symm]
        omega
      · omega
    · rw [Function.update_of_ne hab] at ha ⊢
      have hlt := u.rank_lt a ha
      split_ifs with hrank
      · have hat : a ≠ top := by
          rintro rfl
          exact ha htop
        rw [Function.update_of_ne hat]
        by_cases hparent : u.parent a = top
        · rw [hparent, Function.update_self]
          rw [hparent] at hlt
          omega
        · rwa [Function.update_of_ne hparent]
      · exact hlt

theorem parent_find (u : UnionFind α) (a : α) : (u.find a).1.parent (u.find a).2
    = (u.find a).2 := by
  have hr := (u.find a).1.parent_root a
  rwa [find_root] at hr

theorem parent_find_find (u : UnionFind α) (a b : α) :
    ((u.find a).1.find b).1.parent (u.find a).2 = (u.find a).2 := by
  have hr := ((u.find a).1.find b).1.parent_root a
  rwa [find_root, find_root] at hr

def union (u : UnionFind α) (left right : α) : UnionFind α :=
  let foundLeft := u.find left
  let foundRight := foundLeft.1.find right
  let leftRoot := foundLeft.2
  let rightRoot := foundRight.2
  if h : leftRoot = rightRoot then foundRight.1
  else if hlt : foundRight.1.rank leftRoot < foundRight.1.rank rightRoot then
    foundRight.1.attach rightRoot leftRoot (parent_find _ right) (Ne.symm h) hlt.le
  else
    foundRight.1.attach leftRoot rightRoot (parent_find_find u left right) h (not_lt.mp hlt)

theorem attach_root (u : UnionFind α) {top bottom : α} (htop : u.parent top = top)
    (hb : u.parent bottom = bottom) (hne : top ≠ bottom) (hle : u.rank bottom ≤ u.rank top)
    (a : α) : (u.attach top bottom htop hne hle).root a =
      if u.root a = bottom then top else u.root a :=
  root_eq ((u.endsAt_root a).attach htop hb hne)

theorem union_root (u : UnionFind α) (left right : α) : ∃ top bottom,
    (top = u.root left ∧ bottom = u.root right ∨ top = u.root right ∧ bottom = u.root left) ∧
      ∀ a, (u.union left right).root a = if u.root a = bottom then top else u.root a := by
  have hl : (u.find left).2 = u.root left := rfl
  have hr : ((u.find left).1.find right).2 = u.root right := u.find_root left right
  have ho : ∀ a, ((u.find left).1.find right).1.root a = u.root a := fun a => by
    rw [find_root, find_root]
  rw [union]
  split_ifs with heq hlt
  · refine ⟨u.root left, u.root right, .inl ⟨rfl, rfl⟩, fun a => ?_⟩
    rw [hl, hr] at heq
    rw [ho, ← heq, ite_eq_right_iff.mpr Eq.symm]
  · refine ⟨u.root right, u.root left, .inr ⟨rfl, rfl⟩, fun a => ?_⟩
    rw [attach_root _ _ (parent_find_find u left right), ho, hl, hr]
  · refine ⟨u.root left, u.root right, .inl ⟨rfl, rfl⟩, fun a => ?_⟩
    rw [attach_root _ _ (parent_find _ right), ho, hl, hr]

section respects

variable {β : Type}

/-- The function is constant on every set. -/
def Respects (u : UnionFind α) (f : α → β) : Prop := ∀ a b, u.root a = u.root b → f a = f b

variable {f : α → β}

theorem respects_iff : u.Respects f ↔ ∀ a, f (u.root a) = f a := by
  constructor
  · intro h a
    exact h _ _ (u.root_root a)
  · intro h a b hr
    rw [← h a, ← h b, hr]

theorem respects_init : (init α).Respects f := by
  intro a b hr
  simp only [root_init] at hr
  rw [hr]

/-- Of the classes, a union joins the two and no others. -/
theorem union_respects (u : UnionFind α) (left right : α) :
    (u.union left right).Respects f ↔ u.Respects f ∧ f left = f right := by
  obtain ⟨top, bottom, he, hr⟩ := u.union_root left right
  have hrt : u.root top = top ∧ u.root bottom = bottom := by
    rcases he with ⟨rfl, rfl⟩ | ⟨rfl, rfl⟩ <;> simp
  constructor
  · intro h
    have hj : f top = f bottom := by
      refine h _ _ ?_
      rw [hr, hr, hrt.1, hrt.2, if_pos rfl]
      exact ite_eq_left_iff.mpr fun _ => rfl
    have ho : u.Respects f := by
      rw [respects_iff]
      intro a
      refine h _ _ ?_
      rw [hr, hr, root_root]
    refine ⟨ho, ?_⟩
    rw [← respects_iff.mp ho left, ← respects_iff.mp ho right]
    rcases he with ⟨rfl, rfl⟩ | ⟨rfl, rfl⟩
    · exact hj
    · exact hj.symm
  · rintro ⟨h, heq⟩
    have hj : f top = f bottom := by
      rw [← respects_iff.mp h left, ← respects_iff.mp h right] at heq
      rcases he with ⟨rfl, rfl⟩ | ⟨rfl, rfl⟩
      · exact heq
      · exact heq.symm
    rw [respects_iff]
    intro a
    rw [hr]
    split_ifs with ha
    · rw [hj, ← ha]
      exact respects_iff.mp h a
    · exact respects_iff.mp h a

end respects

end UnionFind
