import EmuFlow.Chimew.Refinement

/-!
# What a refinement changes

A bucket is dealt to its own groups, each of which gets as many signals as it had. The sets of
members follow the groups, also where a deal is taken back.
-/

namespace EmuFlow.Chimew

open Check SortedSet List
open Function (update update_of_ne update_self)

variable {ι : Type} [LinearOrder ι] {sourceY : ι → ℚ} {encoding : ι → ℕ}

/-! ## the sets of members -/

/-- The members are those of the groups, in order. -/
structure Consistent (signals : List ι) (state : Refined ι) : Prop where
  sorted : ∀ g, (state.members g).Pairwise (· < ·)
  mem_iff : ∀ g i, i ∈ state.members g ↔ i ∈ signals ∧ state.group i = g

theorem pairwise_sortedSet (l : List ι) : (sortedSet l).Pairwise (· < ·) := by
  have hle : (sortedSet l).Pairwise fun x y => x ≤ y := pairwise_sortedBy id l.dedup
  exact (hle.and (nodup_sortedSet l)).imp fun h => lt_of_le_of_ne h.1 h.2

theorem eq_of_pairwise_lt {l m : List ι} (hl : l.Pairwise (· < ·)) (hm : m.Pairwise (· < ·))
    (h : ∀ i, i ∈ l ↔ i ∈ m) : l = m := by
  have hn : ∀ {l : List ι}, l.Pairwise (· < ·) → l.Nodup := fun hl => hl.imp ne_of_lt
  refine Perm.eq_of_pairwise ?_ hl hm ((perm_ext_iff_of_nodup (hn hl) (hn hm)).mpr h)
  intro i j _ _ hi hj
  exact absurd (hi.trans hj) (lt_irrefl i)

variable {signals : List ι}

theorem Consistent.ext {s t : Refined ι} (hs : Consistent signals s)
    (ht : Consistent signals t) (hg : s.group = t.group) : s.members = t.members := by
  funext g
  refine eq_of_pairwise_lt (hs.sorted g) (ht.sorted g) fun i => ?_
  rw [hs.mem_iff, ht.mem_iff, hg]

variable {entry : ι × ℕ} {members : ℕ → List ι}

theorem mem_insertMember {g : ℕ} {i : ι} :
    i ∈ insertMember members entry g ↔ (i, g) = entry ∨ i ∈ members g := by
  unfold insertMember
  by_cases hg : g = entry.2
  · subst hg
    simp [Prod.ext_iff]
  · rw [update_of_ne hg]
    simp [Prod.ext_iff, hg]

theorem sorted_insertMember (h : ∀ g, (members g).Pairwise (· < ·))
    (entry : ι × ℕ) (g : ℕ) : (insertMember members entry g).Pairwise (· < ·) := by
  unfold insertMember
  by_cases hg : g = entry.2
  · subst hg
    simpa using pairwise_sortedSet _
  · rw [update_of_ne hg]
    exact h g

theorem mem_eraseMember (h : ∀ g, (members g).Pairwise (· < ·))
    {g : ℕ} {i : ι} :
    i ∈ eraseMember members entry g ↔ i ∈ members g ∧ (i, g) ≠ entry := by
  unfold eraseMember
  by_cases hg : g = entry.2
  · subst hg
    have hn : (members entry.2).Nodup := (h entry.2).imp ne_of_lt
    simp [hn.mem_erase_iff, Prod.ext_iff, and_comm]
  · rw [update_of_ne hg]
    simp [Prod.ext_iff, hg]

theorem sorted_eraseMember (h : ∀ g, (members g).Pairwise (· < ·))
    (entry : ι × ℕ) (g : ℕ) : (eraseMember members entry g).Pairwise (· < ·) := by
  unfold eraseMember
  by_cases hg : g = entry.2
  · subst hg
    simpa using (h entry.2).sublist erase_sublist
  · rw [update_of_ne hg]
    exact h g

theorem foldl_insertMember : ∀ {e : List (ι × ℕ)} {members : ℕ → List ι},
    (∀ g, (members g).Pairwise (· < ·)) →
    (∀ g, (e.foldl insertMember members g).Pairwise (· < ·)) ∧
      ∀ g i, i ∈ e.foldl insertMember members g ↔ (i, g) ∈ e ∨ i ∈ members g
  | [], _, h => ⟨h, by simp⟩
  | entry :: entries, members, h => by
    obtain ⟨hs, hm⟩ := foldl_insertMember (e := entries) (sorted_insertMember h entry)
    refine ⟨hs, fun g i => ?_⟩
    rw [foldl_cons, hm, mem_insertMember, mem_cons]
    tauto

theorem foldl_eraseMember : ∀ {e : List (ι × ℕ)} {members : ℕ → List ι},
    (∀ g, (members g).Pairwise (· < ·)) →
    (∀ g, (e.foldl eraseMember members g).Pairwise (· < ·)) ∧
      ∀ g i, i ∈ e.foldl eraseMember members g ↔ i ∈ members g ∧ (i, g) ∉ e
  | [], _, h => ⟨h, by simp⟩
  | entry :: entries, members, h => by
    obtain ⟨hs, hm⟩ := foldl_eraseMember (e := entries) (sorted_eraseMember h entry)
    refine ⟨hs, fun g i => ?_⟩
    rw [foldl_cons, hm, mem_eraseMember h, mem_cons]
    tauto

theorem foldl_update_of_mem : ∀ {entries : List (ι × ℕ)} {group : ι → ℕ} {i : ι} {g : ℕ},
    (entries.map Prod.fst).Nodup → (i, g) ∈ entries →
    entries.foldl (fun group entry => update group entry.1 entry.2) group i = g
  | entry :: entries, group, i, g, hn, hm => by
    rw [map_cons, nodup_cons] at hn
    rw [foldl_cons]
    rcases mem_cons.mp hm with rfl | hm
    · have hr : ∀ (l : List (ι × ℕ)) (group : ι → ℕ), i ∉ l.map Prod.fst →
          l.foldl (fun group entry => update group entry.1 entry.2) group i = group i := by
        intro l
        induction l with
        | nil => simp
        | cons e l ih =>
          intro group hnt
          rw [map_cons, mem_cons, not_or] at hnt
          rw [foldl_cons, ih _ hnt.2, update_of_ne hnt.1]
      rw [hr entries _ hn.1]
      simp
    · exact foldl_update_of_mem hn.2 hm

theorem foldl_update_of_not_mem : ∀ {entries : List (ι × ℕ)} {group : ι → ℕ} {i : ι},
    i ∉ entries.map Prod.fst →
    entries.foldl (fun group entry => update group entry.1 entry.2) group i = group i
  | [], _, _, _ => rfl
  | entry :: entries, group, i, h => by
    rw [map_cons, mem_cons, not_or] at h
    rw [foldl_cons, foldl_update_of_not_mem h.2, update_of_ne h.1]

variable {state : Refined ι}

theorem Consistent.dealt (h : Consistent signals state)
    {moved : List ι} (hmv : ∀ i ∈ moved, i ∈ signals) {new : List (ι × ℕ)}
    (hn : new.map Prod.fst = moved) (hnd : moved.Nodup) :
    Consistent signals (dealt state (moved.map fun i => (i, state.group i)) new) := by
  obtain ⟨her, hmm⟩ := foldl_eraseMember
    (e := moved.map fun i => (i, state.group i)) h.sorted
  obtain ⟨hs, hm⟩ := foldl_insertMember (e := new) her
  refine ⟨hs, fun g i => ?_⟩
  show i ∈ new.foldl insertMember _ g ↔ i ∈ signals ∧ new.foldl _ state.group i = g
  rw [hm, hmm, h.mem_iff]
  by_cases hi : i ∈ moved
  · -- a moved signal is where it was dealt
    obtain ⟨entry, he, rfl⟩ := mem_map.mp (hn ▸ hi)
    rw [foldl_update_of_mem (hn ▸ hnd) he]
    have hgn : ∀ g, state.group entry.1 = g →
        (entry.1, g) ∈ moved.map fun i => (i, state.group i) := by
      rintro g rfl
      exact mem_map_of_mem (f := fun i => (i, state.group i)) hi
    constructor
    · rintro (hin | ⟨⟨-, hg⟩, hno⟩)
      · have hsm : ((entry.1, g) : ι × ℕ) = entry :=
          inj_on_of_nodup_map (hn ▸ hnd) hin he rfl
        exact ⟨hmv _ hi, (congrArg Prod.snd hsm).symm⟩
      · exact absurd (hgn g hg) hno
    · rintro ⟨-, rfl⟩
      exact .inl he
  · have hnt : (i, g) ∉ new := by
      intro hin
      exact hi (hn ▸ mem_map_of_mem (f := Prod.fst) hin)
    have hnl : (i, g) ∉ moved.map fun i => (i, state.group i) := by
      intro hin
      obtain ⟨j, hj, heq⟩ := mem_map.mp hin
      have hji : j = i := congrArg Prod.fst heq
      exact hi (hji ▸ hj)
    rw [foldl_update_of_not_mem (by rw [hn]; exact hi)]
    simp [hnt, hnl]

theorem Consistent.putBack (h : Consistent signals state) (hen : entry.1 ∈ signals) :
    Consistent signals (putBack state entry) := by
  have he := sorted_eraseMember h.sorted (entry.1, state.group entry.1)
  refine ⟨sorted_insertMember he entry, fun g i => ?_⟩
  show i ∈ insertMember _ entry g ↔ i ∈ signals ∧ update state.group entry.1 entry.2 i = g
  rw [mem_insertMember, mem_eraseMember h.sorted, h.mem_iff]
  by_cases hi : i = entry.1
  · subst hi
    rw [update_self]
    constructor
    · rintro (heq | ⟨⟨-, rfl⟩, hne⟩)
      · exact ⟨hen, (congrArg Prod.snd heq).symm⟩
      · exact absurd rfl hne
    · rintro ⟨-, rfl⟩
      exact .inl rfl
  · rw [update_of_ne hi]
    simp [Prod.ext_iff, hi]

theorem foldl_putBack (h : Consistent signals state)
    {moved : List ι} (hm : ∀ i ∈ moved, i ∈ signals) {new : List (ι × ℕ)}
    (hn : new.map Prod.fst = moved) (hnd : moved.Nodup) :
    (moved.map fun i => (i, state.group i)).foldl putBack
      (dealt state (moved.map fun i => (i, state.group i)) new) = state := by
  have hf : ∀ (l : List (ι × ℕ)) (s : Refined ι), Consistent signals s →
      (∀ e ∈ l, e.1 ∈ signals) →
      Consistent signals (l.foldl putBack s) ∧ (l.foldl putBack s).group =
          l.foldl (fun group entry => update group entry.1 entry.2) s.group ∧
        (l.foldl putBack s).accepted = s.accepted ∧ (l.foldl putBack s).moved = s.moved := by
    intro l
    induction l with
    | nil =>
      intro s hs _
      exact ⟨hs, rfl, rfl, rfl⟩
    | cons e l ih =>
      intro s hs hl
      exact ih _ (hs.putBack (hl e mem_cons_self)) fun e' he' =>
        hl e' (mem_cons_of_mem _ he')
  obtain ⟨hc, hg, ha, hct⟩ := hf
    (moved.map fun i => (i, state.group i)) _ (h.dealt hm hn hnd) (by
      intro e he
      obtain ⟨i, hi, rfl⟩ := mem_map.mp he
      exact hm i hi)
  have hb : ((moved.map fun i => (i, state.group i)).foldl putBack
      (dealt state (moved.map fun i => (i, state.group i)) new)).group = state.group := by
    rw [hg]
    funext i
    have hk : ((moved.map fun i => (i, state.group i)).map Prod.fst) = moved := by
      simp [Function.comp_def]
    by_cases hi : i ∈ moved
    · exact foldl_update_of_mem (by rw [hk]; exact hnd)
        (mem_map_of_mem (f := fun i => (i, state.group i)) hi)
    · rw [foldl_update_of_not_mem (by rw [hk]; exact hi)]
      exact foldl_update_of_not_mem (by rw [hn]; exact hi)
  have hmm := hc.ext h hb
  revert hb hmm ha hct
  generalize (moved.map fun i => (i, state.group i)).foldl putBack
    (dealt state (moved.map fun i => (i, state.group i)) new) = result
  cases result
  cases state
  simp_all [dealt]

/-! ## what is dealt -/

theorem flatMap_replicate_perm {groups l : List ℕ} (hn : groups.Nodup)
    (h : ∀ g ∈ l, g ∈ groups) :
    (groups.flatMap fun g => List.replicate (l.count g) g).Perm l := by
  have hp := @Keyed.flatMap_filter_perm _ _ _ id _ _ hn h
  have hs : (groups.flatMap fun g => l.filter fun b => id b = g) =
      groups.flatMap fun g => List.replicate (l.count g) g :=
    flatMap_congr fun g _ => filter_eq g
  rw [← hs]
  exact hp

omit [LinearOrder ι] in
theorem orderedGroups_perm (sourceY : ι → ℚ) (encoding : ι → ℕ) (state : Refined ι)
    (bucket : List ι) (code : ℕ) :
    (orderedGroups sourceY encoding state bucket code).Perm (affectedGroups state bucket) := by
  unfold orderedGroups
  refine ((sortedBy_perm _ _).map Prod.snd).trans ?_
  rw [map_map]
  simp [Function.comp_def]

omit [LinearOrder ι] in
theorem targets_perm (sourceY : ι → ℚ) (encoding : ι → ℕ) (state : Refined ι)
    (bucket : List ι) (code : ℕ) :
    ((orderedGroups sourceY encoding state bucket code).flatMap fun group =>
      List.replicate (bucket.countP fun i => state.group i = group) group).Perm
      (bucket.map state.group) := by
  have hp := orderedGroups_perm sourceY encoding state bucket code
  have hc : ∀ group, (bucket.countP fun i => state.group i = group) =
      (bucket.map state.group).count group := by
    intro group
    rw [List.count, countP_map]
    refine countP_congr fun i _ => ?_
    simp
  simp only [hc]
  refine flatMap_replicate_perm (hp.nodup_iff.mpr (nodup_sortedSet _)) fun g hg => ?_
  exact hp.mem_iff.mpr (mem_sortedSet.mpr hg)

theorem orderedSignals_perm (sourceY : ι → ℚ) (bucket : List ι) :
    (orderedSignals sourceY bucket).Perm bucket :=
  sortedBy_perm _ _

theorem dealtGroups_fst (sourceY : ι → ℚ) (encoding : ι → ℕ) (state : Refined ι)
    (bucket : List ι) (code : ℕ) :
    (dealtGroups sourceY encoding state bucket code).map Prod.fst =
      orderedSignals sourceY bucket := by
  unfold dealtGroups
  refine map_fst_zip ?_
  rw [(targets_perm sourceY encoding state bucket code).length_eq,
    (orderedSignals_perm sourceY bucket).length_eq]
  simp

theorem dealtGroups_snd (sourceY : ι → ℚ) (encoding : ι → ℕ) (state : Refined ι)
    (bucket : List ι) (code : ℕ) :
    ((dealtGroups sourceY encoding state bucket code).map Prod.snd).Perm
      (bucket.map state.group) := by
  unfold dealtGroups
  rw [map_snd_zip]
  · exact targets_perm sourceY encoding state bucket code
  · rw [(targets_perm sourceY encoding state bucket code).length_eq,
      (orderedSignals_perm sourceY bucket).length_eq]
    simp

theorem perm_append_rest {β : Type} [DecidableEq β] {l part : List β} (hl : l.Nodup)
    (hp : part.Nodup) (hsub : ∀ b ∈ part, b ∈ l) :
    l.Perm (part ++ l.filter fun b => b ∉ part) := by
  refine (perm_ext_iff_of_nodup hl ?_).mpr fun b => ?_
  · refine nodup_append.mpr ⟨hp, hl.filter _, ?_⟩
    intro b hb c hc hbc
    rw [mem_filter] at hc
    exact absurd (hbc ▸ hb) (by simpa using hc.2)
  · rw [List.mem_append, mem_filter]
    by_cases hb : b ∈ part
    · simp [hb, hsub b hb]
    · simp [hb]

def kindsOf {κ : Type} (kind : ι → κ) (group : ι → ℕ) (signals : List ι) : List (ℕ × κ) :=
  signals.map fun i => (group i, kind i)

theorem dealt_perm {κ : Type} (sourceY : ι → ℚ) (encoding : ι → ℕ) {kind : ι → κ}
    {signals bucket : List ι} (hnd : signals.Nodup) (hbucket : bucket.Nodup)
      (hsub : ∀ i ∈ bucket, i ∈ signals)
    (hk : ∀ i ∈ bucket, ∀ j ∈ bucket, kind i = kind j) (state : Refined ι) (code : ℕ)
    (old : List (ι × ℕ)) :
    (kindsOf kind (dealt state old (dealtGroups sourceY encoding state bucket code)).group
      signals).Perm (kindsOf kind state.group signals) := by
  obtain ⟨new, hn⟩ : ∃ new, new = dealtGroups sourceY encoding state bucket code := ⟨_, rfl⟩
  have hf : new.map Prod.fst = orderedSignals sourceY bucket := by
    rw [hn]
    exact dealtGroups_fst sourceY encoding state bucket code
  have hky : (new.map Prod.fst).Nodup := by
    rw [hf]
    exact (orderedSignals_perm sourceY bucket).nodup_iff.mpr hbucket
  have hm : ∀ i, i ∈ new.map Prod.fst ↔ i ∈ bucket := by
    intro i
    rw [hf]
    exact (orderedSignals_perm sourceY bucket).mem_iff
  -- the signals of the bucket and the others
  have hs := perm_append_rest hnd hbucket hsub
  unfold kindsOf
  refine (hs.map _).trans (Perm.trans ?_ (hs.map _).symm)
  rw [map_append, map_append]
  refine Perm.append ?_ ?_
  · cases hc : bucket with
    | nil => simp
    | cons first rest =>
      rw [← hc]
      have hcn : ∀ i ∈ bucket, kind i = kind first :=
        fun i hi => hk i hi first (by simp [hc])
      have hp : ∀ group : ι → ℕ, (bucket.map fun i => (group i, kind i)) =
          (bucket.map group).map fun g => (g, kind first) := by
        intro group
        rw [map_map]
        exact map_congr_left fun i hi => by simp [hcn i hi]
      rw [hp, hp]
      refine Perm.map _ ?_
      have hv : ((new.map Prod.fst).map
          (dealt state old (dealtGroups sourceY encoding state bucket code)).group) =
          new.map Prod.snd := by
        rw [map_map, ← hn]
        exact map_congr_left fun entry he => foldl_update_of_mem hky he
      have hpm : (new.map Prod.fst).Perm bucket := by
        rw [hf]
        exact orderedSignals_perm sourceY bucket
      refine (hpm.map _).symm.trans ?_
      rw [hv, hn]
      exact dealtGroups_snd sourceY encoding state bucket code
  · refine Perm.of_eq (map_congr_left fun i hi => ?_)
    have hnt : i ∉ bucket := by simpa using (mem_filter.mp hi).2
    have hsm : (dealt state old (dealtGroups sourceY encoding state bucket code)).group i =
        state.group i := by
      rw [← hn]
      exact foldl_update_of_not_mem (by rw [hm]; exact hnt)
    rw [hsm]

/-! ## one bucket -/

variable {bucket : ℕ × List ι}

/-- The bucket has two groups, and its deal moves a signal. -/
def Moves (sourceY : ι → ℚ) (encoding : ι → ℕ) (state : Refined ι) (bucket : ℕ × List ι) : Prop :=
  2 ≤ bucket.2.length ∧ 2 ≤ (affectedGroups state bucket.2).length ∧
    (deal sourceY encoding state bucket).group ≠ state.group

/-- The state after an accepted deal. -/
def acceptDeal (sourceY : ι → ℚ) (encoding : ι → ℕ) (state : Refined ι) (bucket : ℕ × List ι) :
    Refined ι :=
  { deal sourceY encoding state bucket with
    accepted := state.accepted + 1
    moved := state.moved + (oldGroups sourceY state bucket).countP fun entry =>
      (deal sourceY encoding state bucket).group entry.1 ≠ entry.2 }

theorem deal_group_of_not_mem (sourceY : ι → ℚ) (encoding : ι → ℕ) {i : ι} (hi : i ∉ bucket.2) :
    (deal sourceY encoding state bucket).group i = state.group i := by
  refine foldl_update_of_not_mem ?_
  rw [dealtGroups_fst]
  exact fun hm => hi ((orderedSignals_perm sourceY bucket.2).mem_iff.mp hm)

section

variable (sourceY : ι → ℚ) (encoding : ι → ℕ) (h : Consistent signals state)
  (hbucket : bucket.2.Nodup) (hsub : ∀ i ∈ bucket.2, i ∈ signals)
include h hbucket hsub

theorem Consistent.deal : Consistent signals (deal sourceY encoding state bucket) := by
  have hp := orderedSignals_perm sourceY bucket.2
  exact h.dealt (fun i hi => hsub i (hp.mem_iff.mp hi)) (dealtGroups_fst ..)
    (hp.nodup_iff.mpr hbucket)

theorem members_deal {g : ℕ} (hg : g ∉ affectedGroups state bucket.2) :
    (deal sourceY encoding state bucket).members g = state.members g := by
  have hc := h.deal sourceY encoding hbucket hsub
  have hk := dealtGroups_fst sourceY encoding state bucket.2 bucket.1
  have hp := orderedSignals_perm sourceY bucket.2
  refine eq_of_pairwise_lt (hc.sorted g) (h.sorted g) fun i => ?_
  rw [hc.mem_iff, h.mem_iff]
  refine and_congr_right fun _ => ?_
  by_cases hi : i ∈ bucket.2
  · -- before and after it is in a group of the bucket
    have ho : state.group i ≠ g := by
      rintro rfl
      exact hg (mem_sortedSet.mpr (mem_map_of_mem hi))
    obtain ⟨entry, he, rfl⟩ := mem_map.mp
      (show i ∈ (dealtGroups sourceY encoding state bucket.2 bucket.1).map Prod.fst by
        rw [hk]
        exact hp.mem_iff.mpr hi)
    have hgr : (deal sourceY encoding state bucket).group entry.1 = entry.2 :=
      foldl_update_of_mem (by rw [hk]; exact hp.nodup_iff.mpr hbucket) he
    have hn : entry.2 ≠ g := by
      rintro rfl
      refine hg (mem_sortedSet.mpr ?_)
      exact (dealtGroups_snd sourceY encoding state bucket.2 bucket.1).mem_iff.mp
        (mem_map_of_mem he)
    rw [hgr]
    simp [ho, hn]
  · rw [deal_group_of_not_mem sourceY encoding hi]

theorem deal_eq_state (hg : (deal sourceY encoding state bucket).group = state.group) :
    deal sourceY encoding state bucket = state := by
  have hm := (h.deal sourceY encoding hbucket hsub).ext h hg
  have ha : (Chimew.deal sourceY encoding state bucket).accepted = state.accepted := rfl
  have hmv : (Chimew.deal sourceY encoding state bucket).moved = state.moved := rfl
  revert hg hm ha hmv
  generalize Chimew.deal sourceY encoding state bucket = result
  cases result
  cases state
  simp_all

/-- A bucket is dealt when the deal moves a signal and does not widen the groups. -/
theorem refineWith_eq (order : List ℕ → List ℕ) [Decidable (Moves sourceY encoding state bucket)] :
    refineWith order sourceY encoding state bucket =
      if Moves sourceY encoding state bucket ∧ ¬ Rises sourceY state.members
          (deal sourceY encoding state bucket).members (order (bucket.2.map state.group)) then
        acceptDeal sourceY encoding state bucket
      else state := by
  have hp := orderedSignals_perm sourceY bucket.2
  have hk := dealtGroups_fst sourceY encoding state bucket.2 bucket.1
  unfold refineWith
  by_cases hs : bucket.2.length < 2 ∨ (affectedGroups state bucket.2).length < 2
  · have hm : ¬ Moves sourceY encoding state bucket := fun hm => by
      obtain ⟨hb, hgp, -⟩ := hm
      omega
    rw [if_pos hs, if_neg fun hc => hm hc.1]
  rw [if_neg hs]
  dsimp only
  by_cases hr : Rises sourceY state.members (deal sourceY encoding state bucket).members
      (order (bucket.2.map state.group))
  · rw [if_pos hr, if_neg fun hc => hc.2 hr]
    exact foldl_putBack h (fun i hi => hsub i (hp.mem_iff.mp hi)) hk
      (hp.nodup_iff.mpr hbucket)
  rw [if_neg hr]
  by_cases hg : (deal sourceY encoding state bucket).group = state.group
  · -- no signal is counted
    have hct : (oldGroups sourceY state bucket).countP (fun entry =>
        (deal sourceY encoding state bucket).group entry.1 ≠ entry.2) = 0 := by
      refine countP_eq_zero.mpr fun entry he => ?_
      obtain ⟨i, -, rfl⟩ := mem_map.mp he
      simp [hg]
    rw [hct, if_neg (lt_irrefl 0), if_neg fun hc => hc.1.2.2 hg]
    exact deal_eq_state sourceY encoding h hbucket hsub hg
  · have hct : 0 < (oldGroups sourceY state bucket).countP fun entry =>
        (deal sourceY encoding state bucket).group entry.1 ≠ entry.2 := by
      by_contra hn
      refine hg (funext fun i => ?_)
      by_cases hi : i ∈ bucket.2
      · have hsa := countP_eq_zero.mp (Nat.eq_zero_of_not_pos hn) (i, state.group i)
          (mem_map_of_mem (f := fun i => (i, state.group i)) (hp.mem_iff.mpr hi))
        simpa using hsa
      · exact deal_group_of_not_mem sourceY encoding hi
    rw [not_or, not_lt, not_lt] at hs
    rw [if_pos hct, if_pos ⟨⟨hs.1, hs.2, hg⟩, hr⟩]
    rfl

end

end EmuFlow.Chimew
