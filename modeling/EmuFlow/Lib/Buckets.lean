import EmuFlow.Lib.Keyed
import EmuFlow.Lib.SortedSet
import Mathlib.Data.List.MinMax

/-!
# Sorted buckets

The elements of a list in buckets by a key, in the order of the keys. Two keys that compare alike
make the same buckets in the same order, and a smallest element under a key that tells elements
apart does not depend on the order they are met in.
-/

namespace Buckets

open SortedSet List Keyed

variable {β κ κ' γ : Type}

section order

variable [DecidableEq κ] [DecidableEq κ']
variable {ρ ρ' : Type} [LinearOrder ρ] [LinearOrder ρ']

def sortedBuckets (key : β → κ) (rank : κ → ρ) (value : κ → γ) (l : List β) :
    List (γ × List β) :=
  (sortedBy (fun entry => rank entry.1) (groupBy key l)).map
    fun entry => (value entry.1, entry.2)

variable {key : β → κ} {rank : κ → ρ} {value : κ → γ} {l : List β}

theorem mem_sortedBuckets {bucket : γ × List β} : bucket ∈ sortedBuckets key rank value l ↔
    ∃ b ∈ l, bucket.1 = value (key b) ∧ bucket.2 = l.filter fun c => key c = key b := by
  unfold sortedBuckets
  rw [mem_map]
  constructor
  · rintro ⟨⟨k, bs⟩, he, rfl⟩
    obtain ⟨hk, hbs⟩ := mem_groupBy.mp (mem_sortedBy.mp he)
    obtain ⟨b, hb, rfl⟩ := mem_map.mp hk
    exact ⟨b, hb, rfl, hbs⟩
  · rintro ⟨b, hb, hv, hbs⟩
    refine ⟨(key b, bucket.2), mem_sortedBy.mpr (mem_groupBy.mpr
      ⟨mem_map_of_mem hb, hbs⟩), ?_⟩
    rw [← hv]

theorem flatMap_sortedBuckets_perm :
    ((sortedBuckets key rank value l).flatMap Prod.snd).Perm l := by
  unfold sortedBuckets
  rw [flatMap_map]
  have hs : ((sortedBy (fun e : κ × List β => rank e.1)
      (groupBy key l)).flatMap Prod.snd).Perm ((groupBy key l).flatMap Prod.snd) :=
    (sortedBy_perm _ _).flatMap_right _
  refine hs.trans ?_
  have hf : (groupBy key l).flatMap Prod.snd =
      ((groupBy key l).map Prod.fst).flatMap fun k => l.filter fun b => key b = k := by
    rw [flatMap_map]
    exact flatMap_congr fun e he => (mem_groupBy.mp he).2
  rw [hf]
  refine flatMap_filter_perm (nodup_groupBy key l) fun b hb => ?_
  exact mem_map.mpr ⟨(key b, _), mem_groupBy.mpr ⟨mem_map_of_mem hb, rfl⟩, rfl⟩

theorem pairwise_sortedBuckets : (sortedBuckets key rank value l).Pairwise fun x y =>
    ∀ b ∈ x.2, ∀ c ∈ y.2, rank (key b) ≤ rank (key c) := by
  unfold sortedBuckets
  rw [pairwise_map]
  refine (pairwise_sortedBy (fun e : κ × List β => rank e.1) _).imp_of_mem ?_
  rintro ⟨k, bs⟩ ⟨k', bs'⟩ hx hy hle b hb c hc
  rw [(mem_groupBy.mp (mem_sortedBy.mp hx)).2] at hb
  rw [(mem_groupBy.mp (mem_sortedBy.mp hy)).2] at hc
  rw [of_decide_eq_true (mem_filter.mp hb).2, of_decide_eq_true (mem_filter.mp hc).2]
  exact hle

theorem nodup_sortedBuckets : (sortedBuckets key rank value l).Nodup := by
  refine (nodup_map_iff_inj_on ?_).mpr ?_
  · exact nodup_sortedBy.mpr (nodup_groupBy key l).of_map
  · rintro ⟨k, bs⟩ hx ⟨k', bs'⟩ hy heq
    obtain ⟨hk, hbs⟩ := mem_groupBy.mp (mem_sortedBy.mp hx)
    obtain ⟨hk', hbs'⟩ := mem_groupBy.mp (mem_sortedBy.mp hy)
    have hs : bs = bs' := congrArg Prod.snd heq
    obtain ⟨b, hb, rfl⟩ := mem_map.mp hk
    have hm : b ∈ bs' := by
      rw [← hs, hbs]
      exact mem_filter.mpr ⟨hb, decide_eq_true rfl⟩
    rw [hbs'] at hm
    rw [hs, of_decide_eq_true (mem_filter.mp hm).2]

theorem sortedBuckets_congr {key' : β → κ'} {rank' : κ' → ρ'} {value' : κ' → γ}
    (hrn : ∀ b ∈ l, ∀ c ∈ l, rank (key b) ≤ rank (key c) ↔ rank' (key' b) ≤ rank' (key' c))
    (hky : ∀ b ∈ l, ∀ c ∈ l, rank (key b) = rank (key c) → key b = key c)
    (hky' : ∀ b ∈ l, ∀ c ∈ l, rank' (key' b) = rank' (key' c) → key' b = key' c)
    (hvl : ∀ b ∈ l, value (key b) = value' (key' b)) :
    sortedBuckets key rank value l = sortedBuckets key' rank' value' l := by
  have hsm : ∀ b ∈ l, ∀ c ∈ l, key b = key c ↔ key' b = key' c := by
    intro b hb c hc
    constructor
    · intro h
      refine hky' b hb c hc (le_antisymm ?_ ?_)
      · exact (hrn b hb c hc).mp (by rw [h])
      · exact (hrn c hc b hb).mp (by rw [h])
    · intro h
      refine hky b hb c hc (le_antisymm ?_ ?_)
      · exact (hrn b hb c hc).mpr (by rw [h])
      · exact (hrn c hc b hb).mpr (by rw [h])
  have hme : ∀ bucket : γ × List β, bucket ∈ sortedBuckets key rank value l ↔
      bucket ∈ sortedBuckets key' rank' value' l := by
    intro bucket
    rw [mem_sortedBuckets, mem_sortedBuckets]
    refine exists_congr fun b => and_congr_right fun hb => ?_
    rw [hvl b hb]
    have hfl : (l.filter fun c => key c = key b) = l.filter fun c => key' c = key' b :=
      filter_congr fun c hc => decide_eq_decide.mpr (hsm c hc b hb)
    rw [hfl]
  have hpr := (perm_ext_iff_of_nodup nodup_sortedBuckets nodup_sortedBuckets).mpr hme
  refine Perm.eq_of_pairwise ?_ pairwise_sortedBuckets
    (pairwise_sortedBuckets.imp_of_mem (S := fun x y => ∀ b ∈ x.2, ∀ c ∈ y.2,
      rank (key b) ≤ rank (key c)) ?_) hpr
  · -- two buckets below each other have one key
    intro x y hx hy hxy hyx
    obtain ⟨b, hb, hb1, hb2⟩ := mem_sortedBuckets.mp hx
    obtain ⟨c, hc, hc1, hc2⟩ := mem_sortedBuckets.mp ((hme y).mpr hy)
    have hbx : b ∈ x.2 := by
      rw [hb2]
      exact mem_filter.mpr ⟨hb, decide_eq_true rfl⟩
    have hcy : c ∈ y.2 := by
      rw [hc2]
      exact mem_filter.mpr ⟨hc, decide_eq_true rfl⟩
    have heq := hky b hb c hc (le_antisymm (hxy b hbx c hcy) (hyx c hcy b hbx))
    exact Prod.ext (by rw [hb1, hc1, heq]) (by rw [hb2, hc2, heq])
  · intro x y hx hy hle b hb c hc
    have hmm : ∀ {bucket : γ × List β}, bucket ∈ sortedBuckets key' rank' value' l →
        ∀ {d : β}, d ∈ bucket.2 → d ∈ l := by
      intro bucket hbc d hd
      obtain ⟨e, -, -, he⟩ := mem_sortedBuckets.mp hbc
      rw [he] at hd
      exact (mem_filter.mp hd).1
    exact (hrn b (hmm hx hb) c (hmm hy hc)).mpr (hle b hb c hc)

end order

/-- A least element without ties depends on the members alone. -/
theorem argmin_congr {ρ : Type} [LinearOrder ρ] {f g : β → ρ} {l m : List β} (hp : l.Perm m)
    (hi : ∀ b ∈ l, ∀ c ∈ l, f b = f c → b = c) (hf : ∀ b ∈ l, f b = g b) :
    l.argmin f = m.argmin g := by
  cases hl : l.argmin f with
  | none =>
    rw [argmin_eq_none] at hl
    rw [hl] at hp
    rw [nil_perm.mp hp]
    rfl
  | some b =>
    cases hm : m.argmin g with
    | none =>
      rw [argmin_eq_none] at hm
      rw [hm] at hp
      rw [perm_nil.mp hp] at hl
      cases hl
    | some c =>
      have hb := argmin_mem hl
      have hc := argmin_mem hm
      have hcl := hp.mem_iff.mpr hc
      refine congrArg some (hi b hb c hcl (le_antisymm (le_of_mem_argmin hcl hl) ?_))
      rw [hf b hb, hf c hcl]
      exact le_of_mem_argmin (hp.mem_iff.mp hb) hm

theorem argmin_map {ρ : Type} [LinearOrder ρ] (g : β → γ) (f : γ → ρ) (l : List β) :
    (l.map g).argmin f = (l.argmin (f ∘ g)).map g := by
  induction l with
  | nil => simp
  | cons b l ih =>
    rw [map_cons, argmin_cons, argmin_cons, ih]
    cases hl : l.argmin (f ∘ g) with
    | none => simp
    | some c =>
      by_cases hlt : f (g c) < f (g b)
      · simp [hlt]
      · simp [hlt]

end Buckets
