import Mathlib.Data.List.Nodup
import Mathlib.Tactic

/-!
# Dictionaries of records

A dictionary whose values carry their own key is the list of its values. With distinct keys a
lookup finds exactly the members.
-/

namespace Keyed

open List Prod

variable {α κ : Type} [DecidableEq κ]

def find (key : α → κ) (l : List α) (k : κ) : Option α := l.find? fun a => key a = k

variable {key : α → κ} {l : List α} {k : κ} {a : α}

theorem mem_of_find (h : find key l k = some a) : a ∈ l := List.mem_of_find?_eq_some h

theorem key_of_find (h : find key l k = some a) : key a = k := by
  simpa using List.find?_some h

theorem exists_find (h : k ∈ l.map key) : ∃ a, find key l k = some a := by
  obtain ⟨a, ha, hk⟩ := mem_map.mp h
  rw [find, ← Option.isSome_iff_exists, List.find?_isSome]
  exact ⟨a, ha, by simpa using hk⟩

theorem find_eq_some (hnd : (l.map key).Nodup) : find key l k = some a ↔ a ∈ l ∧ key a = k := by
  constructor
  · intro h
    exact ⟨mem_of_find h, key_of_find h⟩
  · rintro ⟨ha, rfl⟩
    obtain ⟨b, hb⟩ : ∃ b, find key l (key a) = some b := exists_find (mem_map_of_mem ha)
    rw [hb, inj_on_of_nodup_map hnd (mem_of_find hb) ha (key_of_find hb)]

theorem find_of_mem (hnd : (l.map key).Nodup) (h : a ∈ l) : find key l (key a) = some a :=
  (find_eq_some hnd).mpr ⟨h, rfl⟩

omit [DecidableEq κ] in
theorem nodup_map_snoc : ((l ++ [a]).map key).Nodup ↔ (l.map key).Nodup ∧ key a ∉ l.map key := by
  rw [map_append, map_singleton, ← concat_eq_append, nodup_concat]
  exact and_comm

theorem lookup_of_mem {β : Type} :
    ∀ {l : List (κ × β)} {k : κ} {b : β}, (l.map fst).Nodup → (k, b) ∈ l → l.lookup k = some b
  | (k', b') :: l, k, b, hnd, h => by
    rw [map_cons, nodup_cons] at hnd
    rcases mem_cons.mp h with heq | hm
    · cases heq
      exact lookup_cons_self
    · have hne : k ≠ k' := by
        intro heq
        exact hnd.1 (heq ▸ mem_map.mpr ⟨(k, b), hm, rfl⟩)
      rw [lookup_cons, beq_eq_false_iff_ne.mpr hne]
      exact lookup_of_mem hnd.2 hm

omit [DecidableEq κ] in
theorem mem_of_lookup {β : Type} [BEq κ] [LawfulBEq κ] {l : List (κ × β)} {k : κ} {v : β}
    (h : l.lookup k = some v) : (k, v) ∈ l := by
  obtain ⟨pre, post, rfl, -⟩ := lookup_eq_some_iff.mp h
  exact mem_append_right pre mem_cons_self

omit [DecidableEq κ] in
theorem exists_lookup {β : Type} [BEq κ] [LawfulBEq κ] {l : List (κ × β)} {k : κ}
    (h : k ∈ l.map fst) : ∃ v, l.lookup k = some v := by
  rw [← Option.isSome_iff_exists, lookup_isSome_iff]
  obtain ⟨⟨k', v⟩, hm, rfl⟩ := mem_map.mp h
  exact ⟨(k', v), hm, by simp⟩

/-! ## grouping -/

section grouping

variable {β : Type}

def append (k : κ) (b : β) : List (κ × List β) → List (κ × List β)
  | [] => [(k, [b])]
  | entry :: groups =>
    if entry.1 = k then (k, entry.2 ++ [b]) :: groups else entry :: append k b groups

def groupBy (key : β → κ) (l : List β) : List (κ × List β) :=
  l.foldl (fun groups b => append (key b) b groups) []

theorem keys_append (k : κ) (b : β) (groups : List (κ × List β)) :
    (append k b groups).map fst =
      if k ∈ groups.map fst then groups.map fst else groups.map fst ++ [k] := by
  induction groups with
  | nil => rfl
  | cons entry groups ih =>
    rw [append]
    by_cases hk : entry.1 = k
    · rw [if_pos hk, if_pos (by simp [hk])]
      simp [hk]
    · rw [if_neg hk, map_cons, ih]
      by_cases hm : k ∈ groups.map fst
      · rw [if_pos hm, if_pos (by rw [map_cons]; exact mem_cons_of_mem _ hm)]
        rfl
      · rw [if_neg hm, if_neg (by simp [Ne.symm hk, hm])]
        rfl

theorem mem_append {k : κ} {b : β} {groups : List (κ × List β)}
    (hn : (groups.map fst).Nodup) {k' : κ} {bs : List β} :
    (k', bs) ∈ append k b groups ↔
      if k' = k then bs = ((groups.lookup k).getD []) ++ [b] else (k', bs) ∈ groups := by
  induction groups with
  | nil =>
    split_ifs with hk <;> simp [append, hk]
  | cons entry groups ih =>
    rw [map_cons, nodup_cons] at hn
    obtain ⟨k₀, bs₀⟩ := entry
    rw [append]
    by_cases hk : k₀ = k
    · subst hk
      have hnn : (k₀, bs) ∉ groups := fun h => hn.1 (mem_map.mpr ⟨_, h, rfl⟩)
      rw [if_pos rfl, mem_cons]
      split_ifs with hk'
      · subst hk'
        simp [hnn]
      · simp [hk']
    · rw [if_neg hk, mem_cons, ih hn.2]
      split_ifs with hk'
      · subst hk'
        rw [lookup_cons, beq_eq_false_iff_ne.mpr (Ne.symm hk)]
        simp [Ne.symm hk]
      · rw [mem_cons]

theorem append_last {k : κ} {b : β} {groups : List (κ × List β)} (hk : k ∉ groups.map fst)
    (bs : List β) : append k b (groups ++ [(k, bs)]) = groups ++ [(k, bs ++ [b])] := by
  induction groups with
  | nil => simp [append]
  | cons entry groups ih =>
    rw [map_cons, mem_cons, not_or] at hk
    rw [cons_append, append, if_neg (Ne.symm hk.1), ih hk.2]
    rfl

theorem append_new {k : κ} {b : β} {groups : List (κ × List β)} (hk : k ∉ groups.map fst) :
    append k b groups = groups ++ [(k, [b])] := by
  induction groups with
  | nil => rfl
  | cons entry groups ih =>
    rw [map_cons, mem_cons, not_or] at hk
    rw [append, if_neg (Ne.symm hk.1), ih hk.2]
    rfl

theorem foldl_append_flatMap : ∀ {groups done : List (κ × List β)},
    ((done ++ groups).map fst).Nodup → (∀ e ∈ groups, e.2 ≠ []) →
      (groups.flatMap fun e => e.2.map fun b => (e.1, b)).foldl
        (fun acc pair => append pair.1 pair.2 acc) done = done ++ groups
  | [], done, _, _ => by
    rw [append_nil]
    rfl
  | (k, bs) :: groups, done, hn, hne => by
    obtain ⟨hb, hr⟩ := forall_mem_cons.mp hne
    have hs : done ++ (k, bs) :: groups = (done ++ [(k, bs)]) ++ groups := by simp
    have hk : k ∉ done.map fst := by
      rw [hs, map_append] at hn
      exact (nodup_map_snoc.mp (nodup_append.mp hn).1).2
    have hg : ∀ (rest done' : List β), (rest.map fun b => (k, b)).foldl
        (fun acc pair => append pair.1 pair.2 acc) (done ++ [(k, done')]) =
          done ++ [(k, done' ++ rest)] := by
      intro rest
      induction rest with
      | nil => intro done'; simp
      | cons b rest ih =>
        intro done'
        rw [map_cons, foldl_cons, append_last hk, ih, append_assoc, singleton_append]
    rw [flatMap_cons, foldl_append]
    cases bs with
    | nil => exact absurd rfl hb
    | cons b bs =>
      rw [map_cons, foldl_cons, append_new hk, hg]
      rw [hs] at hn ⊢
      exact foldl_append_flatMap hn hr

theorem lookup_map_snd {γ : Type} (g : β → γ) (k : κ) :
    ∀ l : List (κ × β), (l.map fun e => (e.1, g e.2)).lookup k = (l.lookup k).map g
  | [] => rfl
  | (k', b) :: l => by
    rw [map_cons, lookup_cons, lookup_cons, lookup_map_snd g k l]
    dsimp only
    cases k == k' <;> rfl

theorem flatMap_filter_perm {key : β → κ} : ∀ {keys : List κ} {l : List β}, keys.Nodup →
    (∀ b ∈ l, key b ∈ keys) → (keys.flatMap fun k => l.filter fun b => key b = k).Perm l
  | [], [], _, _ => .nil
  | [], b :: l, _, h => absurd (h b mem_cons_self) not_mem_nil
  | k :: keys, l, hn, h => by
    obtain ⟨hk, hky⟩ := nodup_cons.mp hn
    have hr := flatMap_filter_perm hky fun b hb => by
        obtain ⟨hb, hne⟩ := mem_filter.mp hb
        exact (mem_cons.mp (h b hb)).resolve_left (of_decide_eq_true hne)
    have hs : (keys.flatMap fun k' => (l.filter fun b => ¬ key b = k).filter
        fun b => key b = k') = keys.flatMap fun k' => l.filter fun b => key b = k' := by
      refine flatMap_congr fun k' hk' => ?_
      rw [filter_filter]
      refine filter_congr fun b _ => ?_
      by_cases hb : key b = k'
      · have hne : key b ≠ k := fun heq => hk (heq.symm.trans hb ▸ hk')
        simp [hb, show k' ≠ k from hb ▸ hne]
      · simp [hb]
    rw [flatMap_cons]
    refine (Perm.append_left _ (hs ▸ hr)).trans ?_
    simpa using filter_append_perm (fun b => decide (key b = k)) l

theorem nodup_groupBy (key : β → κ) (l : List β) : ((groupBy key l).map fst).Nodup := by
  induction l using reverseRecOn with
  | nil => exact nodup_nil
  | append_singleton l b ih =>
    rw [groupBy, foldl_append, foldl_cons, foldl_nil, keys_append]
    split_ifs with hm
    · exact ih
    · exact nodup_append.mpr ⟨ih, nodup_singleton _, by
        rintro a ha b hb rfl
        exact hm (mem_singleton.mp hb ▸ ha)⟩

theorem mem_groupBy {key : β → κ} {l : List β} {k : κ} {bs : List β} :
    (k, bs) ∈ groupBy key l ↔ k ∈ l.map key ∧ bs = l.filter fun b => key b = k := by
  induction l using reverseRecOn generalizing k bs with
  | nil => simp [groupBy]
  | append_singleton l b ih =>
    have ho : ((groupBy key l).lookup (key b)).getD [] = l.filter fun c => key c = key b := by
      by_cases hm : key b ∈ l.map key
      · rw [lookup_of_mem (nodup_groupBy key l) (ih.mpr ⟨hm, rfl⟩)]
        rfl
      · have hn : (groupBy key l).lookup (key b) = none := by
          rw [lookup_eq_none_iff]
          rintro ⟨k', bs'⟩ he
          have hne : key b ≠ k' := fun h => hm (h ▸ (ih.mp he).1)
          simpa using hne
        rw [hn, Option.getD_none, eq_comm, filter_eq_nil_iff]
        intro c hc hky
        exact hm (mem_map.mpr ⟨c, hc, by simpa using hky⟩)
    rw [groupBy, foldl_append, foldl_cons, foldl_nil]
    rw [show l.foldl (fun groups b => append (key b) b groups) [] = groupBy key l from rfl,
      mem_append (nodup_groupBy key l), ho, filter_append, map_append]
    split_ifs with hk
    · subst hk
      simp
    · rw [ih, filter_singleton]
      simp [hk, Ne.symm hk]

end grouping

end Keyed
