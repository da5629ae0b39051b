import EmuFlow.Lib.Keyed
import Mathlib.Data.List.MinMax

/-!
# Representatives of groups

The elements of a list by a key, with the first element of the largest rank of each group. A
quantity that is least at the representative of each group has its minimum over all elements among
the representatives.
-/

namespace Representatives

open List

variable {α κ ρ β : Type} [DecidableEq κ] [LinearOrder ρ] [LinearOrder β]

def choose (rank : α → ρ) : List α → Option α :=
  List.foldl (fun current a =>
    match current with
    | none => some a
    | some b => if rank b < rank a then some a else some b) none

theorem choose_append (rank : α → ρ) (l : List α) (a : α) : choose rank (l ++ [a]) =
    match choose rank l with
    | none => some a
    | some b => if rank b < rank a then some a else some b := by
  simp [choose]

theorem choose_spec {rank : α → ρ} {l : List α} {a : α} (h : choose rank l = some a) :
    a ∈ l ∧ ∀ b ∈ l, rank b ≤ rank a := by
  induction l using reverseRecOn generalizing a with
  | nil => cases h
  | append_singleton l x ih =>
    rw [choose_append] at h
    cases hch : choose rank l with
    | none =>
      cases l with
      | nil =>
        rw [hch] at h
        cases h
        simp
      | cons y l =>
        -- a nonempty list has a chosen element
        exfalso
        have hs : ∀ (m : List α) (c : α), m.foldl (fun current a =>
            match current with
            | none => some a
            | some b => if rank b < rank a then some a else some b) (some c) ≠ none := by
          intro m
          induction m with
          | nil => simp
          | cons z m ihm =>
            intro c
            rw [foldl_cons]
            dsimp only
            split <;> exact ihm _
        exact hs l y hch
    | some c =>
      obtain ⟨hc, hmax⟩ := ih hch
      rw [hch] at h
      dsimp only at h
      split at h
      · next hlt =>
        cases h
        refine ⟨by simp, fun b hb => ?_⟩
        rcases List.mem_append.mp hb with hb | hb
        · exact (hmax b hb).trans hlt.le
        · rw [mem_singleton.mp hb]
      · next hle =>
        cases h
        refine ⟨mem_append_left _ hc, fun b hb => ?_⟩
        rcases List.mem_append.mp hb with hb | hb
        · exact hmax b hb
        · rw [mem_singleton.mp hb]
          exact not_lt.mp hle

theorem exists_choose (rank : α → ρ) {l : List α} (h : l ≠ []) : ∃ a, choose rank l = some a := by
  obtain ⟨l, x, rfl⟩ := eq_nil_or_concat l |>.resolve_left h
  rw [concat_eq_append, choose_append]
  cases choose rank l with
  | none => exact ⟨x, rfl⟩
  | some b =>
    dsimp only
    split
    · exact ⟨x, rfl⟩
    · exact ⟨b, rfl⟩

def representatives (key : α → κ) (rank : α → ρ) (l : List α) : List (κ × List α × α) :=
  (Keyed.groupBy key l).filterMap fun group =>
    (choose rank group.2).map fun chosen => (group.1, group.2, chosen)

variable {key : α → κ} {rank : α → ρ} {l : List α}

theorem mem_representatives {k : κ} {members : List α} {chosen : α} :
    (k, members, chosen) ∈ representatives key rank l ↔ k ∈ l.map key ∧
      members = l.filter (fun a => key a = k) ∧ choose rank members = some chosen := by
  unfold representatives
  rw [mem_filterMap]
  constructor
  · rintro ⟨⟨k', group⟩, hg, hch⟩
    obtain ⟨c, hc, heq⟩ := Option.map_eq_some_iff.mp hch
    obtain ⟨rfl, rfl, rfl⟩ : k' = k ∧ group = members ∧ c = chosen := by
      simpa using heq
    obtain ⟨hk, hm⟩ := Keyed.mem_groupBy.mp hg
    exact ⟨hk, hm, hc⟩
  · rintro ⟨hk, hm, hch⟩
    exact ⟨(k, members), Keyed.mem_groupBy.mpr ⟨hk, hm⟩, by simp [hch]⟩

theorem exists_representative (key : α → κ) (rank : α → ρ) {a : α} (ha : a ∈ l) : ∃ chosen,
    (key a, l.filter (fun b => key b = key a), chosen) ∈ representatives key rank l := by
  have hne : (l.filter fun b => key b = key a) ≠ [] := ne_nil_of_mem (mem_filter.mpr ⟨ha, by simp⟩)
  obtain ⟨chosen, hc⟩ := exists_choose rank hne
  exact ⟨chosen, mem_representatives.mpr ⟨mem_map_of_mem ha, rfl, hc⟩⟩

theorem representative_mem {k : κ} {members : List α} {chosen : α}
    (h : (k, members, chosen) ∈ representatives key rank l) :
    chosen ∈ l ∧ key chosen = k ∧ chosen ∈ members ∧
      ∀ a ∈ l, key a = k → rank a ≤ rank chosen := by
  obtain ⟨-, rfl, hc⟩ := mem_representatives.mp h
  obtain ⟨hm, hmax⟩ := choose_spec hc
  obtain ⟨hl, hk⟩ := mem_filter.mp hm
  exact ⟨hl, by simpa using hk, hm, fun a ha hka => hmax a (mem_filter.mpr ⟨ha, by simpa⟩)⟩

theorem nodup_representatives (key : α → κ) (rank : α → ρ) (l : List α) :
    ((representatives key rank l).map Prod.fst).Nodup := by
  have hs : ((representatives key rank l).map Prod.fst).Sublist
      ((Keyed.groupBy key l).map Prod.fst) := by
    unfold representatives
    generalize Keyed.groupBy key l = groups
    induction groups with
    | nil => exact .slnil
    | cons group groups ih =>
      cases hc : choose rank group.2 with
      | none =>
        rw [filterMap_cons_none (by rw [hc]; rfl), map_cons]
        exact ih.cons _
      | some chosen =>
        rw [filterMap_cons_some (by rw [hc]; rfl), map_cons, map_cons]
        exact ih.cons_cons _
  exact hs.nodup (Keyed.nodup_groupBy key l)

/-- The representatives have the minimum of all. -/
theorem minimum_representatives (key : α → κ) (rank : α → ρ) {f : α → β}
    (hf : ∀ a ∈ l, ∀ b ∈ l, key a = key b →
    rank a ≤ rank b → f b ≤ f a) :
    ((representatives key rank l).map fun e => f e.2.2).minimum = (l.map f).minimum := by
  refine le_antisymm (le_minimum_of_forall_le fun b hb => ?_)
    (le_minimum_of_forall_le fun b hb => ?_)
  · obtain ⟨a, ha, rfl⟩ := mem_map.mp hb
    obtain ⟨chosen, hc⟩ := exists_representative key rank ha
    obtain ⟨hl, hk, -, hmax⟩ := representative_mem hc
    have hle : ((representatives key rank l).map fun e => f e.2.2).minimum ≤ f chosen :=
      minimum_le_of_mem' (mem_map.mpr ⟨_, hc, rfl⟩)
    exact hle.trans (WithTop.coe_le_coe.mpr (hf a ha chosen hl hk.symm (hmax a ha rfl)))
  · obtain ⟨⟨k, members, chosen⟩, hc, rfl⟩ := mem_map.mp hb
    exact minimum_le_of_mem' (mem_map_of_mem (representative_mem hc).1)

end Representatives
