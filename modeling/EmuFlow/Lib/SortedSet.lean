import Mathlib.Data.List.Sort
import Mathlib.Data.Prod.Lex
import Mathlib.Data.String.Basic
import Mathlib.Tactic

/-!
# Sorted lists and the sets they stand for

Lists used as sets: equality as sets, stable sorting by a key, the sorted list of the distinct
elements, and the maximum of a list of natural numbers. A list sorted by an injective key depends
on its elements only.
-/

namespace SortedSet

open List

variable {α κ : Type} [LinearOrder κ]

def SameSet (l m : List α) : Prop := (∀ a ∈ l, a ∈ m) ∧ ∀ a ∈ m, a ∈ l

instance [DecidableEq α] (l m : List α) : Decidable (SameSet l m) :=
  inferInstanceAs (Decidable (_ ∧ _))

theorem sameSet_iff {l m : List α} : SameSet l m ↔ ∀ a, a ∈ l ↔ a ∈ m :=
  ⟨fun h a => ⟨h.1 a, h.2 a⟩, fun h => ⟨fun a => (h a).mp, fun a => (h a).mpr⟩⟩

/-! ## sorting -/

def sortedBy (key : α → κ) (l : List α) : List α := l.insertionSort fun a b => key a ≤ key b

/-- The sort key of a pair, first component first. -/
def lex {κ' : Type} (a : κ) (b : κ') : κ ×ₗ κ' := toLex (a, b)

variable {key : α → κ}

@[simp] theorem mem_sortedBy {l : List α} {a : α} : a ∈ sortedBy key l ↔ a ∈ l :=
  mem_insertionSort _

theorem sortedBy_perm (key : α → κ) (l : List α) : (sortedBy key l).Perm l := perm_insertionSort _ l

theorem nodup_sortedBy {l : List α} : (sortedBy key l).Nodup ↔ l.Nodup :=
  (sortedBy_perm key l).nodup_iff

@[simp] theorem length_sortedBy {key : α → κ} {l : List α} : (sortedBy key l).length = l.length :=
  length_insertionSort _ l

theorem pairwise_sortedBy (key : α → κ) (l : List α) :
    (sortedBy key l).Pairwise fun a b => key a ≤ key b := by
  have ht : Std.Total fun a b : α => key a ≤ key b := ⟨fun a b => le_total (key a) (key b)⟩
  have htr : IsTrans α fun a b : α => key a ≤ key b := ⟨fun _ _ _ => le_trans⟩
  exact pairwise_insertionSort _ l

theorem sortedBy_eq_self {l : List α}
    (h : l.Pairwise fun a b => key a ≤ key b) : sortedBy key l = l :=
  h.insertionSort_eq

theorem sortedBy_idem (key : α → κ) (l : List α) : sortedBy key (sortedBy key l) = sortedBy key l :=
  sortedBy_eq_self (pairwise_sortedBy key l)

theorem sortedBy_congr {l m : List α} (hp : l.Perm m)
    (hi : ∀ a ∈ l, ∀ b ∈ l, key a = key b → a = b) : sortedBy key l = sortedBy key m := by
  refine Perm.eq_of_pairwise ?_ (pairwise_sortedBy key l) (pairwise_sortedBy key m)
    ((sortedBy_perm key l).trans (hp.trans (sortedBy_perm key m).symm))
  intro a b ha hb hab hba
  rw [mem_sortedBy] at ha hb
  exact hi a ha b (hp.mem_iff.mpr hb) (le_antisymm hab hba)

theorem filter_sortedBy {p : α → Bool} {l m : List α} (hp : (l.filter p).Perm m)
    (hm : m.Pairwise fun a b => key a < key b) : (sortedBy key l).filter p = m := by
  have hpr : ((sortedBy key l).filter p).Perm m := ((sortedBy_perm key l).filter p).trans hp
  have hi : ∀ a ∈ m, ∀ b ∈ m, key a = key b → a = b := by
    have hne : (m.map key).Nodup := pairwise_map.mpr (hm.imp fun h => h.ne)
    exact fun a ha b hb hab => inj_on_of_nodup_map hne ha hb hab
  have hs : ((sortedBy key l).filter p).Pairwise fun a b => key a ≤ key b :=
    (pairwise_sortedBy key l).sublist filter_sublist
  refine Perm.eq_of_pairwise ?_ hs (hm.imp fun h => h.le) hpr
  exact fun a b ha hb hab hba => hi a (hpr.mem_iff.mp ha) b hb (le_antisymm hab hba)

theorem map_sortedBy {β : Type} {f : α → β} {key' : β → κ}
    (h : ∀ a, key' (f a) = key a) (l : List α) :
    (sortedBy key l).map f = sortedBy key' (l.map f) :=
  map_insertionSort _ _ f l fun a _ b _ => by rw [h, h]

def sorted (l : List κ) : List κ := sortedBy id l

variable {l : List κ}

@[simp] theorem mem_sorted {a : κ} : a ∈ sorted l ↔ a ∈ l := mem_sortedBy

theorem nodup_sorted : (sorted l).Nodup ↔ l.Nodup := nodup_sortedBy

@[simp] theorem length_sorted : (sorted l).length = l.length := length_sortedBy

theorem sorted_congr {l m : List κ} (h : l.Perm m) : sorted l = sorted m :=
  sortedBy_congr h fun _ _ _ _ => id

def sortedSet (l : List κ) : List κ := sorted l.dedup

@[simp] theorem mem_sortedSet {a : κ} : a ∈ sortedSet l ↔ a ∈ l := by
  rw [sortedSet, mem_sorted, mem_dedup]

theorem nodup_sortedSet (l : List κ) : (sortedSet l).Nodup := nodup_sorted.mpr l.nodup_dedup

/-- The sorted set depends on the members alone. -/
theorem sortedSet_congr {l m : List κ} (h : ∀ a, a ∈ l ↔ a ∈ m) : sortedSet l = sortedSet m := by
  refine sorted_congr ((perm_ext_iff_of_nodup l.nodup_dedup m.nodup_dedup).mpr ?_)
  simpa only [mem_dedup] using h

@[simp] theorem sortedSet_idem (l : List κ) : sortedSet (sortedSet l) = sortedSet l :=
  sortedSet_congr fun _ => mem_sortedSet

/-- `max(l, default=0)` of natural numbers. -/
def maxOrZero (l : List Nat) : Nat := l.foldr max 0

theorem le_maxOrZero : ∀ {l : List Nat} {n : Nat}, n ∈ l → n ≤ maxOrZero l
  | [], _, h => absurd h not_mem_nil
  | m :: l, n, h => by
    rw [maxOrZero, foldr_cons]
    rcases mem_cons.mp h with rfl | h
    · exact le_max_left _ _
    · exact le_trans (le_maxOrZero h) (le_max_right _ _)

theorem maxOrZero_le : ∀ {l : List Nat} {n : Nat}, (∀ m ∈ l, m ≤ n) → maxOrZero l ≤ n
  | [], n, _ => Nat.zero_le n
  | m :: l, n, h => by
    rw [maxOrZero, foldr_cons]
    exact max_le (h m mem_cons_self) (maxOrZero_le fun m hm => h m (mem_cons_of_mem _ hm))

end SortedSet
