import Mathlib.Data.List.Sort
import Mathlib.Tactic

/-!
# Dictionaries in the order of their keys

A dictionary as the list of its items in ascending order of the keys. Two of them are equal as
dictionaries exactly when they are the same list, so that what a sequence of updates builds is
known from its lookups.
-/

namespace SortedDict

open List

variable {κ β : Type} [LinearOrder κ]

def Ascending (d : List (κ × β)) : Prop := d.Pairwise fun a b => a.1 < b.1

instance (d : List (κ × β)) : Decidable (Ascending d) :=
  inferInstanceAs (Decidable (List.Pairwise _ _))

def get (key : κ) (d : List (κ × β)) : Option β := d.lookup key

def set (key : κ) (value : β) : List (κ × β) → List (κ × β)
  | [] => [(key, value)]
  | item :: d =>
    if key = item.1 then (key, value) :: d
    else if key < item.1 then (key, value) :: item :: d
    else item :: set key value d

/-- `{**d, **other}`. -/
def update (d other : List (κ × β)) : List (κ × β) :=
  other.foldl (fun d item => set item.1 item.2 d) d

def display (items : List (κ × β)) : List (κ × β) := update [] items

/-- `{key: value for key, value in d.items() if key not in keys}`. -/
def without (keys : List κ) (d : List (κ × β)) : List (κ × β) :=
  d.filter fun item => !keys.contains item.1

/-! ## lookups -/

variable {d other : List (κ × β)} {key k : κ} {value : β} {item : κ × β}

@[simp] theorem get_nil : get key ([] : List (κ × β)) = none := rfl

theorem get_cons : get k (item :: d) = if k = item.1 then some item.2 else get k d := by
  unfold get
  rw [lookup_cons]
  by_cases h : k = item.1
  · rw [if_pos h, beq_iff_eq.mpr h]
  · rw [if_neg h, beq_eq_false_iff_ne.mpr h]

@[simp] theorem get_set : get k (set key value d) = if k = key then some value else get k d := by
  induction d with
  | nil => rw [set, get_cons]
  | cons item d ih =>
    rw [set]
    by_cases hky : key = item.1
    · rw [if_pos hky, get_cons, get_cons, ← hky]
      split_ifs <;> rfl
    by_cases hlt : key < item.1
    · rw [if_neg hky, if_pos hlt, get_cons]
    · rw [if_neg hky, if_neg hlt, get_cons, get_cons, ih]
      by_cases hk : k = item.1
      · rw [if_pos hk, if_pos hk, if_neg fun h => hky (h.symm.trans hk)]
      · rw [if_neg hk, if_neg hk]

theorem get_eq_none (h : ∀ item ∈ d, item.1 ≠ k) : get k d = none := by
  induction d with
  | nil => rfl
  | cons item d ih =>
    rw [get_cons, if_neg (h item mem_cons_self).symm]
    exact ih fun x hx => h x (mem_cons_of_mem item hx)

theorem mem_of_get (h : get k d = some value) : (k, value) ∈ d := by
  induction d with
  | nil => cases h
  | cons item d ih =>
    rw [get_cons] at h
    split_ifs at h with hk
    · cases h
      rw [hk]
      exact mem_cons_self
    · exact mem_cons_of_mem item (ih h)

theorem get_of_mem (hd : Ascending d) (h : item ∈ d) : get item.1 d = some item.2 := by
  induction d with
  | nil => cases h
  | cons first d ih =>
    obtain ⟨hf, hd⟩ := pairwise_cons.mp hd
    rw [get_cons]
    rcases mem_cons.mp h with rfl | h
    · rw [if_pos rfl]
    · rw [if_neg (hf item h).ne']
      exact ih hd h

@[simp] theorem get_without {keys : List κ} :
    get k (without keys d) = if k ∈ keys then none else get k d := by
  induction d with
  | nil => simp [without]
  | cons item d ih =>
    rw [without, filter_cons]
    by_cases hky : item.1 ∈ keys
    · rw [if_neg (by simpa using hky), ← without, ih, get_cons]
      split_ifs with hk hki
      · rfl
      · exact absurd (hki ▸ hky) hk
      · rfl
    · rw [if_pos (by simpa using hky), get_cons, get_cons, ← without, ih]
      split_ifs with hki hk
      · exact absurd (hki ▸ hk) hky
      · rfl
      · rfl
      · rfl

theorem get_update (ho : Ascending other) :
    get k (update d other) = (get k other).or (get k d) := by
  unfold update
  induction other generalizing d with
  | nil => rfl
  | cons item other ih =>
    obtain ⟨hi, ho⟩ := pairwise_cons.mp ho
    rw [foldl_cons, ih ho, get_set, get_cons]
    split_ifs with hk
    · rw [get_eq_none fun x hx => hk ▸ (hi x hx).ne']
      rfl
    · rfl

/-! ## order -/

theorem mem_keys_set {x : κ} :
    x ∈ (set key value d).map Prod.fst ↔ x = key ∨ x ∈ d.map Prod.fst := by
  induction d with
  | nil => simp [set]
  | cons item d ih =>
    rw [set]
    split_ifs with hk hlt
    · simp [hk]
    · simp
    · rw [map_cons, mem_cons, ih, map_cons, mem_cons, or_left_comm]

theorem ascending_cons : Ascending (item :: d) ↔ (∀ x ∈ d.map Prod.fst, item.1 < x) ∧
    Ascending d := by
  unfold Ascending
  rw [pairwise_cons, forall_mem_map]

@[simp] theorem ascending_nil : Ascending ([] : List (κ × β)) := List.Pairwise.nil

@[simp] theorem ascending_set (h : Ascending d) : Ascending (set key value d) := by
  induction d with
  | nil => exact pairwise_singleton _ _
  | cons item d ih =>
    obtain ⟨hi, hd⟩ := ascending_cons.mp h
    rw [set]
    split_ifs with hk hlt
    · exact ascending_cons.mpr ⟨hk ▸ hi, hd⟩
    · refine ascending_cons.mpr ⟨fun x hx => ?_, h⟩
      rcases mem_cons.mp hx with rfl | hx
      · exact hlt
      · exact hlt.trans (hi x hx)
    · refine ascending_cons.mpr ⟨fun x hx => ?_, ih hd⟩
      rcases mem_keys_set.mp hx with rfl | hx
      · exact lt_of_le_of_ne (not_lt.mp hlt) (Ne.symm hk)
      · exact hi x hx

@[simp] theorem ascending_update (h : Ascending d) : Ascending (update d other) := by
  unfold update
  induction other generalizing d with
  | nil => exact h
  | cons item other ih => exact ih (ascending_set h)

@[simp] theorem ascending_display : Ascending (display d) := ascending_update ascending_nil

@[simp] theorem ascending_without {keys : List κ} (h : Ascending d) : Ascending (without keys d) :=
  List.Pairwise.filter _ h

/-- Two ascending dictionaries with the same entries are equal. -/
theorem ext (hd : Ascending d) (ho : Ascending other)
    (h : ∀ k, get k d = get k other) : d = other := by
  have hnd : ∀ {d : List (κ × β)}, Ascending d → d.Nodup := fun hd =>
    hd.imp fun ha heq => absurd (heq ▸ ha) (lt_irrefl _)
  refine Perm.eq_of_pairwise ?_ hd ho ?_
  · exact fun a b _ _ ha hb => absurd (ha.trans hb) (lt_irrefl _)
  · refine (perm_ext_iff_of_nodup (hnd hd) (hnd ho)).mpr fun item => ?_
    constructor
    · intro hi
      exact mem_of_get ((h item.1).symm.trans (get_of_mem hd hi))
    · intro hi
      exact mem_of_get ((h item.1).trans (get_of_mem ho hi))

theorem set_eq_self (hd : Ascending d) (h : get key d = some value) : set key value d = d := by
  refine ext (ascending_set hd) hd fun k => ?_
  rw [get_set]
  split_ifs with hk
  · rw [hk, h]
  · rfl

theorem display_eq_self (h : Ascending d) : display d = d := by
  refine ext ascending_display h fun k => ?_
  rw [display, get_update h, get_nil, Option.or_none]

theorem get_eq_some_of_nodup (h : (d.map Prod.fst).Nodup) :
    get k d = some value ↔ (k, value) ∈ d := by
  induction d with
  | nil => simp
  | cons item d ih =>
    rw [map_cons, nodup_cons] at h
    rw [get_cons, mem_cons]
    by_cases hk : k = item.1
    · subst hk
      have hn : (item.1, value) ∉ d := fun hm =>
        h.1 (mem_map.mpr ⟨_, hm, rfl⟩)
      simp [hn, Prod.ext_iff, eq_comm]
    · rw [if_neg hk, ih h.2]
      have hne : (k, value) ≠ item := fun heq => hk (congrArg Prod.fst heq)
      simp [hne]

theorem get_update_of_nodup (h : (other.map Prod.fst).Nodup) :
    get k (update d other) = (get k other).or (get k d) := by
  unfold update
  induction other generalizing d with
  | nil => rfl
  | cons item other ih =>
    rw [map_cons, nodup_cons] at h
    rw [foldl_cons, ih h.2, get_set, get_cons]
    split_ifs with hk
    · have hn : get k other = none := by
        refine get_eq_none fun x hx heq => h.1 ?_
        rw [← hk, ← heq]
        exact mem_map_of_mem hx
      rw [hn]
      rfl
    · rfl

theorem update_perm {other' : List (κ × β)} (hd : Ascending d) (hp : other.Perm other')
    (h : (other.map Prod.fst).Nodup) : update d other = update d other' := by
  have h' := (hp.map Prod.fst).nodup_iff.mp h
  refine ext (ascending_update hd) (ascending_update hd) fun k => ?_
  rw [get_update_of_nodup h, get_update_of_nodup h']
  refine congrArg (fun o => o.or (get k d)) (Option.ext fun value => ?_)
  rw [get_eq_some_of_nodup h, get_eq_some_of_nodup h', hp.mem_iff]

end SortedDict
