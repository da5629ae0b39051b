import EmuFlow.Coarsener.Chains
import EmuFlow.Coarsener.Levels

/-!
# MFSPart coarsener: the margin repair

A round of the repair ends exactly when no way back from an anchor that is too close is entangled.
It never finds too few merges, each round but the last removes some, and after the last one the
anchors of different parts are far enough apart in the coarse graph.
-/

namespace EmuFlow.Coarsener

open List Outcome

variable {dims : ℕ} {mode : Margin} {fine : Graph dims} {selected : List (Candidate fine.size)}
  {active : Fin selected.length → Bool} {source : Fin fine.size}
  {labels : Fin fine.size → Label fine.size selected.length}

/-! ## one pair of anchors -/

/-- Two anchors of different parts are closer with the active merges than they may be. -/
def Deficient (mode : Margin) (fine : Graph dims) (selected : List (Candidate fine.size))
    (active : Fin selected.length → Bool) (source target : Fin fine.size) : Prop :=
  anchorPart fine source ≠ anchorPart fine target ∧
    ∃ cost : ℕ, Cheapest (adjacency fine selected.get active) source target cost ∧
      (cost : ℤ) < minimumAllowed fine mode source target

theorem minimumAllowed_le_of_walk (mode : Margin) {source target : Fin fine.size}
    (walk : fine.skeleton.Walk source target) :
    minimumAllowed fine mode source target ≤ walk.length := by
  rw [minimumAllowed]
  have hle := SimpleGraph.edist_le walk
  split
  · next hn =>
    rw [anchorDistance_none hn] at hle
    exact absurd (top_le_iff.mp hle) (ENat.natCast_ne_top _)
  · next baseline hs =>
    rw [anchorDistance_some hs] at hle
    have hb : baseline ≤ walk.length := by exact_mod_cast hle
    exact le_trans (min_le_left _ _) (by exact_mod_cast hb)

section target

variable (hmatching : Matching selected)
  (hjoins : ∀ candidate ∈ selected, Joined fine candidate.left candidate.right)
  (h : Searched (adjacency fine selected.get active) source labels)
  {remove : Finset (Fin selected.length)} {target : Fin fine.size} {fuel : ℕ}

variable {merges : List (Fin selected.length)}

theorem length_pathMerges (hn : merges.Nodup) :
    (pathMerges fine selected.get merges).length = merges.length := by
  have hs := (perm_insertionSort
    (fun a b => (!removedBefore fine selected.get b a) = true) merges)
  rw [pathMerges, (hs.nodup_iff.mpr hn).dedup, hs.length_eq]

theorem mem_pathMerges {merge : Fin selected.length} :
    merge ∈ pathMerges fine selected.get merges ↔ merge ∈ merges := by
  rw [pathMerges, mem_dedup, mem_insertionSort]

include h in
theorem repairTarget_of_not_deficient (hn : ¬Deficient mode fine selected active source target) :
    repairTarget mode fine selected.get fuel labels source remove target = .ok remove := by
  rw [repairTarget]
  split_ifs with hp
  · rfl
  · split
    · rfl
    · next distance hd =>
      rw [if_pos]
      by_contra hdf
      exact hn ⟨hp, distance, h.cheapest_iff.mpr hd, by omega⟩

include hmatching hjoins h

variable (mode) in
theorem deficient_passes {cost : ℕ} (hc : (labels target).distance = cost)
    (hm : reconstruct labels source fuel target = some merges) :
    Passes fine selected active labels source target cost merges ∧
      minimumAllowed fine mode source target - cost ≤
        (pathMerges fine selected.get merges).length := by
  obtain ⟨fuel', merges', hm', hp⟩ := h.reconstruct_ends hmatching hjoins
    (h.not_entangled hc hm) hc .target
  have hs : merges = merges' := by
    have h1 := reconstruct_mono (Nat.le_max_left fuel fuel') hm
    rw [reconstruct_mono (Nat.le_max_right fuel fuel') hm'] at h1
    exact (Option.some.inj h1).symm
  subst hs
  refine ⟨hp, ?_⟩
  obtain ⟨walk, hw⟩ := hp.walk
  have hle := minimumAllowed_le_of_walk mode walk
  rw [length_pathMerges hp.nodup]
  rw [hw] at hle
  push_cast at hle
  omega

omit hmatching hjoins h in
theorem repairTarget_eq {cost : ℕ} (hp : anchorPart fine source ≠ anchorPart fine target)
    (hc : (labels target).distance = cost) (hlt : (cost : ℤ) < minimumAllowed fine mode source
      target) :
    repairTarget mode fine selected.get fuel labels source remove target =
      (reconstruct labels source fuel target).bind fun merges =>
        if ((pathMerges fine selected.get merges).length : ℤ) <
            minimumAllowed fine mode source target - cost then
          some (.error "margin repair cannot identify enough merges")
        else
          Outcome.ok (remove ∪ ((pathMerges fine selected.get merges).take
            (minimumAllowed fine mode source target - cost).toNat).toFinset) := by
  rw [repairTarget, if_neg hp]
  split
  · next hn =>
    rw [hc] at hn
    cases hn
  · next distance hs =>
    have hd : distance = cost := Option.some.inj (hs.symm.trans hc)
    subst hd
    rw [if_neg (by omega)]
    cases reconstruct labels source fuel target with
    | none => rfl
    | some merges => rfl

variable (mode remove target fuel) in
/-- A repair raises no error; that of a pair that is too close ends exactly when its way back is not
entangled, and removes active merges. -/
theorem repairTarget_cases :
    (∀ e, repairTarget mode fine selected.get fuel labels source remove target ≠ some (.error e)) ∧
      ∀ remove', repairTarget mode fine selected.get fuel labels source remove target =
          .ok remove' →
        remove ⊆ remove' ∧ (∀ merge ∈ remove', merge ∈ remove ∨ active merge = true) ∧
        (Deficient mode fine selected active source target → remove' ≠ ∅ ∧
          ¬Entangled (adjacency fine selected.get active) source target) := by
  by_cases hd : Deficient mode fine selected active source target
  · obtain ⟨hp, cost, hch, hlt⟩ := hd
    have hc := h.cheapest_iff.mp hch
    have hv := @repairTarget_eq _ mode fine selected source labels remove target fuel _ hp
      hc hlt
    cases hmr : reconstruct labels source fuel target with
    | none =>
      rw [hmr, Option.bind_none] at hv
      rw [hv]
      exact ⟨fun _ he => (by cases he), fun _ hok => (by cases hok)⟩
    | some merges =>
      obtain ⟨hps, hen⟩ := deficient_passes mode hmatching hjoins h hc hmr
      rw [hmr, Option.bind_some, if_neg (not_lt.mpr hen)] at hv
      rw [hv]
      refine ⟨fun _ he => (by cases he), fun remove' hok => ?_⟩
      cases hok
      refine ⟨Finset.subset_union_left, ?_, fun _ => ⟨?_, h.not_entangled hc hmr⟩⟩
      · intro merge hmg
        rcases Finset.mem_union.mp hmg with hm | hm
        · exact .inl hm
        · rw [mem_toFinset] at hm
          exact .inr (hps.active merge (mem_pathMerges.mp (mem_of_mem_take hm)))
      · intro hem
        have hn := (toFinset_eq_empty_iff _).mp (Finset.union_eq_empty.mp hem).2
        have hl := congrArg List.length hn
        rw [length_take, length_nil] at hl
        omega
  · rw [repairTarget_of_not_deficient h hd]
    refine ⟨fun _ he => (by cases he), fun remove' hok => ?_⟩
    cases hok
    exact ⟨Finset.Subset.refl _, fun merge hm => .inl hm, fun hy => absurd hy hd⟩

theorem exists_repairTarget (hf : Deficient mode fine selected active source target →
      ¬Entangled (adjacency fine selected.get active) source target)
    (remove : Finset (Fin selected.length)) :
    ∃ fuel remove', repairTarget mode fine selected.get fuel labels source remove target =
      .ok remove' := by
  by_cases hd : Deficient mode fine selected active source target
  · obtain ⟨hp, cost, hc, hlt⟩ := hd
    have hcs := h.cheapest_iff.mp hc
    obtain ⟨fuel, merges, hm, -⟩ := h.reconstruct_ends hmatching hjoins
      (hf ⟨hp, cost, hc, hlt⟩) hcs .target
    refine ⟨fuel, ?_⟩
    obtain ⟨-, he⟩ := deficient_passes mode hmatching hjoins h hcs hm
    rw [repairTarget_eq hp hcs hlt, hm, Option.bind_some, if_neg (not_lt.mpr he)]
    exact ⟨_, rfl⟩
  · exact ⟨0, remove, repairTarget_of_not_deficient h hd⟩

end target

/-!
## MFSPart coarsener: the repair rounds

The rounds end exactly when no round that is reached meets an entangled way back; what is left of
the merges then keeps the anchors apart.
-/

/-- More fuel does not change a value. -/
def Stable {α : Type} (f : ℕ → Outcome α) : Prop :=
  ∀ fuel fuel' a, fuel ≤ fuel' → f fuel = Outcome.ok a → f fuel' = Outcome.ok a

theorem Stable.andThen {α β : Type} {f : ℕ → Outcome α} {g : ℕ → α → Outcome β} (hf : Stable f)
    (hg : ∀ a, Stable fun fuel => g fuel a) : Stable fun fuel => (f fuel).andThen (g fuel) := by
  intro fuel fuel' b hle h
  obtain ⟨a, ha, hb⟩ := andThen_eq_ok.mp h
  exact andThen_eq_ok.mpr ⟨a, hf fuel fuel' a hle ha, hg a fuel fuel' b hle hb⟩

theorem Stable.eq {α : Type} {f : ℕ → Outcome α} (hf : Stable f) {fuel fuel' : ℕ} {a b : α}
    (ha : f fuel = Outcome.ok a) (hb : f fuel' = Outcome.ok b) : a = b := by
  have h1 := hf fuel (max fuel fuel') a (Nat.le_max_left _ _) ha
  rw [hf fuel' (max fuel fuel') b (Nat.le_max_right _ _) hb] at h1
  exact (Except.ok.inj (Option.some.inj h1)).symm

variable {dims : ℕ} {mode : Margin} {fine : Graph dims} {selected : List (Candidate fine.size)}
  {active : Fin selected.length → Bool}

section targets

variable {source : Fin fine.size} {labels : Fin fine.size → Label fine.size selected.length}

theorem repairTarget_stable (remove : Finset (Fin selected.length)) (target : Fin fine.size) :
    Stable fun fuel => repairTarget mode fine selected.get fuel labels source remove target := by
  intro fuel fuel' a hle h
  dsimp only at h ⊢
  rw [repairTarget] at h ⊢
  split_ifs at h ⊢ with hp
  · exact h
  · split at h
    · exact h
    · dsimp only at h ⊢
      split_ifs at h ⊢ with hd
      · exact h
      · cases hm : reconstruct labels source fuel target with
        | none =>
          rw [hm] at h
          cases h
        | some merges =>
          rw [hm] at h
          rw [reconstruct_mono hle hm]
          exact h

theorem repairTargets_stable (targets : List (Fin fine.size)) : ∀ remove, Stable fun fuel =>
      repairTargets mode fine selected.get fuel labels source targets remove := by
  induction targets with
  | nil => exact fun _ _ _ _ _ h => h
  | cons target targets ih => exact fun remove => (repairTarget_stable remove target).andThen ih

variable (hmatching : Matching selected)
  (hjoins : ∀ candidate ∈ selected, Joined fine candidate.left candidate.right)
  (h : Searched (adjacency fine selected.get active) source labels)

include hmatching hjoins h

variable (mode) in
theorem repairTargets_cases (fuel : ℕ) (targets : List (Fin fine.size)) :
    ∀ remove, (∀ e, repairTargets mode fine selected.get fuel labels source targets remove ≠
        some (.error e)) ∧
      ∀ remove', repairTargets mode fine selected.get fuel labels source targets remove =
          .ok remove' →
        remove ⊆ remove' ∧ (∀ merge ∈ remove', merge ∈ remove ∨ active merge = true) ∧
        ∀ target ∈ targets, Deficient mode fine selected active source target →
          remove' ≠ ∅ ∧ ¬Entangled (adjacency fine selected.get active) source target := by
  induction targets with
  | nil =>
    refine fun remove => ⟨fun _ he => (by cases he), fun remove' hok => ?_⟩
    cases hok
    exact ⟨Finset.Subset.refl _, fun _ hm => .inl hm, fun _ hm => absurd hm not_mem_nil⟩
  | cons target targets ih =>
    intro remove
    obtain ⟨he, hc⟩ := repairTarget_cases mode hmatching hjoins h remove target fuel
    constructor
    · intro e hb
      rcases andThen_eq_error.mp hb with hb | ⟨next, -, hb⟩
      · exact he e hb
      · exact (ih next).1 e hb
    · intro remove' hok
      obtain ⟨next, hn, hr⟩ := andThen_eq_ok.mp hok
      obtain ⟨hs, hac, ht⟩ := hc next hn
      obtain ⟨hs', hac', ha⟩ := (ih next).2 remove' hr
      refine ⟨hs.trans hs', fun merge hm => ?_, forall_mem_cons.mpr ⟨?_, ha⟩⟩
      · rcases hac' merge hm with hm | hy
        · exact hac merge hm
        · exact .inr hy
      · intro hd
        obtain ⟨hne, hf⟩ := ht hd
        exact ⟨fun hem => hne (Finset.subset_empty.mp (hem ▸ hs')), hf⟩

variable (mode) in
theorem exists_repairTargets (targets : List (Fin fine.size))
    (hf : ∀ target ∈ targets, Deficient mode fine selected active source target →
      ¬Entangled (adjacency fine selected.get active) source target) :
    ∀ remove, ∃ fuel remove',
      repairTargets mode fine selected.get fuel labels source targets remove = .ok remove' := by
  induction targets with
  | nil => exact fun remove => ⟨0, remove, rfl⟩
  | cons target targets ih =>
    intro remove
    obtain ⟨fuel, next, hn⟩ := exists_repairTarget hmatching hjoins h
      (hf target mem_cons_self) remove
    obtain ⟨fuel', remove', hr⟩ := ih (fun t ht => hf t (mem_cons_of_mem _ ht)) next
    exact ⟨max fuel fuel', remove', andThen_eq_ok.mpr ⟨next,
      repairTarget_stable _ _ _ _ _ (Nat.le_max_left _ _) hn,
      repairTargets_stable _ _ _ _ _ (Nat.le_max_right _ _) hr⟩⟩

end targets

section round

theorem repairSources_stable (active : Fin selected.length → Bool)
    (sources : List (Fin fine.size)) :
    ∀ state, Stable fun fuel =>
      repairSources mode fine selected.get fuel active sources state := by
  induction sources with
  | nil => exact fun _ _ _ _ _ h => h
  | cons source later ih =>
    rintro ⟨remove, searches⟩ fuel fuel' r hle h
    dsimp only at h ⊢
    rw [repairSources] at h ⊢
    split_ifs at h ⊢ with hd
    · cases hs : search fuel (adjacency fine selected.get active) source with
      | none =>
        rw [hs] at h
        cases h
      | some labels =>
        rw [hs] at h
        rw [search_mono hle hs]
        exact (repairTargets_stable later remove).andThen (fun next => ih (next, searches + 1))
          fuel fuel' r hle h
    · exact ih (remove, searches) fuel fuel' r hle h

theorem repairRound_stable (active : Fin selected.length → Bool) :
    Stable fun fuel => repairRound mode fine selected.get fuel active :=
  repairSources_stable active (anchors fine) (∅, 0)

theorem not_deficient_of_same {source target : Fin fine.size}
    (hs : anchorPart fine source = anchorPart fine target) :
    ¬Deficient mode fine selected active source target := fun h => h.1 hs

variable (hmatching : Matching selected)
  (hjoins : ∀ candidate ∈ selected, Joined fine candidate.left candidate.right)

include hmatching hjoins

theorem repairSources_cases (fuel : ℕ) (sources : List (Fin fine.size)) :
    ∀ state, (∀ e, repairSources mode fine selected.get fuel active sources state ≠
        some (.error e)) ∧
      ∀ r, repairSources mode fine selected.get fuel active sources state = .ok r →
        state.1 ⊆ r.1 ∧ (∀ merge ∈ r.1, merge ∈ state.1 ∨ active merge = true) ∧
        sources.Pairwise fun source target =>
          Deficient mode fine selected active source target →
            r.1 ≠ ∅ ∧ ¬Entangled (adjacency fine selected.get active) source target := by
  induction sources with
  | nil =>
    refine fun state => ⟨fun _ her => (by cases her), fun r hok => ?_⟩
    cases hok
    exact ⟨Finset.Subset.refl _, fun _ hmm => .inl hmm, .nil⟩
  | cons source later ih =>
    rintro ⟨remove, searches⟩
    rw [repairSources]
    split_ifs with hds
    · cases hsr : search fuel (adjacency fine selected.get active) source with
      | none => exact ⟨fun _ her => (by cases her), fun _ hok => (by cases hok)⟩
      | some labels =>
        dsimp only
        obtain ⟨her, hcs⟩ := repairTargets_cases mode hmatching hjoins
          (searched_of_search hsr) fuel later remove
        constructor
        · intro e hbd
          rcases andThen_eq_error.mp hbd with hbd | ⟨next, -, hbd⟩
          · exact her e hbd
          · exact (ih (next, searches + 1)).1 e hbd
        · intro r hok
          obtain ⟨next, hnx, hrs⟩ := andThen_eq_ok.mp hok
          obtain ⟨hsb, hac, htg⟩ := hcs next hnx
          obtain ⟨hsb', hac', hpr⟩ := (ih (next, searches + 1)).2 r hrs
          refine ⟨hsb.trans hsb', fun merge hmm => ?_, pairwise_cons.mpr ⟨?_, hpr⟩⟩
          · rcases hac' merge hmm with hmm | hys
            · exact hac merge hmm
            · exact .inr hys
          · intro target htr hdf
            obtain ⟨hne, hfr⟩ := htg target htr hdf
            exact ⟨fun hem => hne (Finset.subset_empty.mp (hem ▸ hsb')), hfr⟩
    · obtain ⟨her, hcs⟩ := ih (remove, searches)
      refine ⟨her, fun r hok => ?_⟩
      obtain ⟨hsb, hac, hpr⟩ := hcs r hok
      refine ⟨hsb, hac, pairwise_cons.mpr ⟨fun target htr hdf => ?_, hpr⟩⟩
      refine absurd hdf (not_deficient_of_same ?_)
      by_contra hdr
      exact hds (any_eq_true.mpr ⟨target, htr, by simpa using hdr⟩)

theorem exists_repairSources (sources : List (Fin fine.size))
    (hf : sources.Pairwise fun source target =>
      Deficient mode fine selected active source target →
        ¬Entangled (adjacency fine selected.get active) source target) :
    ∀ state, ∃ fuel result,
      repairSources mode fine selected.get fuel active sources state = .ok result := by
  induction sources with
  | nil => exact fun state => ⟨0, state, rfl⟩
  | cons source later ih =>
    rw [pairwise_cons] at hf
    rintro ⟨remove, searches⟩
    by_cases hd : later.any (fun target =>
        anchorPart fine source ≠ anchorPart fine target) = true
    · obtain ⟨fuel, labels, hs⟩ := exists_search (adjacency fine selected.get active) source
      obtain ⟨fuel', next, hn⟩ := exists_repairTargets mode hmatching hjoins
        (searched_of_search hs) later hf.1 remove
      obtain ⟨fuel'', result, hr⟩ := ih hf.2 (next, searches + 1)
      refine ⟨max fuel (max fuel' fuel''), result, ?_⟩
      rw [repairSources, if_pos hd, search_mono (Nat.le_max_left _ _) hs]
      exact andThen_eq_ok.mpr ⟨next, repairTargets_stable _ _ _ _ _ (by omega) hn,
        repairSources_stable _ _ _ _ _ _ (by omega) hr⟩
    · obtain ⟨fuel, result, hr⟩ := ih hf.2 (remove, searches)
      refine ⟨fuel, result, ?_⟩
      rw [repairSources, if_neg hd]
      exact hr

end round

/-! ## the rounds -/

inductive RoundReached (mode : Margin) (fine : Graph dims)
    (selected : List (Candidate fine.size)) : (Fin selected.length → Bool) → Prop
  | first : RoundReached mode fine selected fun _ => true
  | next {active : Fin selected.length → Bool} {fuel : ℕ}
      {result : Finset (Fin selected.length) × ℕ} (h : RoundReached mode fine selected active)
      (hround : repairRound mode fine selected.get fuel active = .ok result)
      (hremove : result.1 ≠ ∅) :
      RoundReached mode fine selected fun merge => active merge && decide (merge ∉ result.1)

/-- In no round is the way back between two anchors that are too close entangled. -/
def RepairUntangled (mode : Margin) (fine : Graph dims) (selected : List (Candidate fine.size)) :
    Prop :=
  ∀ active, RoundReached mode fine selected active →
    (anchors fine).Pairwise fun source target =>
      Deficient mode fine selected active source target →
        ¬Entangled (adjacency fine selected.get active) source target

section rounds

variable {fuel : ℕ}

theorem repair_last {round : Finset (Fin selected.length) × ℕ} (rounds : ℕ) (counters : Counters)
    (hround : repairRound mode fine selected.get fuel active = .ok round) (he : round.1 = ∅) :
    ∃ result, repair mode fine selected.get fuel (rounds + 1) active counters = .ok result := by
  rw [repair, hround, andThen_ok]
  dsimp only
  rw [if_pos he]
  exact ⟨_, rfl⟩

theorem repair_stable (rounds : ℕ) :
    ∀ (active : Fin selected.length → Bool) (counters : Counters), Stable fun fuel =>
      repair mode fine selected.get fuel rounds active counters := by
  induction rounds with
  | zero => exact fun _ _ _ _ _ _ h => by cases h
  | succ rounds ih =>
    intro active counters
    refine (repairRound_stable active).andThen fun r => ?_
    intro fuel fuel' value hle h
    dsimp only at h ⊢
    split_ifs at h ⊢
    · exact h
    · exact ih _ _ fuel fuel' value hle h

theorem repair_more {rounds rounds' : ℕ} (hle : rounds ≤ rounds') :
    ∀ {active : Fin selected.length → Bool} {counters : Counters}
      {result : (Fin selected.length → Bool) × Counters},
      repair mode fine selected.get fuel rounds active counters = .ok result →
      repair mode fine selected.get fuel rounds' active counters = .ok result := by
  induction rounds generalizing rounds' with
  | zero => exact fun h => by cases h
  | succ rounds ih =>
    intro active counters result h
    obtain ⟨rounds', rfl⟩ : ∃ j, rounds' = j + 1 := ⟨rounds' - 1, by omega⟩
    rw [repair] at h ⊢
    obtain ⟨round, hround, h⟩ := andThen_eq_ok.mp h
    refine andThen_eq_ok.mpr ⟨round, hround, ?_⟩
    dsimp only at h ⊢
    split_ifs at h ⊢
    · exact h
    · exact ih (by omega) h

variable (hmatching : Matching selected)
  (hjoins : ∀ candidate ∈ selected, Joined fine candidate.left candidate.right)

include hmatching hjoins

theorem repair_no_error (rounds : ℕ) :
    ∀ (active : Fin selected.length → Bool) (counters : Counters) (e : String),
      repair mode fine selected.get fuel rounds active counters ≠ some (.error e) := by
  induction rounds with
  | zero => exact fun _ _ _ h => by cases h
  | succ rounds ih =>
    intro active counters e h
    rw [repair] at h
    rcases andThen_eq_error.mp h with h | ⟨round, -, h⟩
    · exact (repairSources_cases hmatching hjoins fuel (anchors fine) (∅, 0)).1 e h
    · dsimp only at h
      split_ifs at h
      · cases h
      · exact ih _ _ e h

theorem repair_not_deficient {rounds : ℕ} :
    ∀ {active : Fin selected.length → Bool} {counters : Counters}
      {r : (Fin selected.length → Bool) × Counters},
      repair mode fine selected.get fuel rounds active counters = .ok r →
      (anchors fine).Pairwise fun source target =>
        ¬Deficient mode fine selected r.1 source target := by
  induction rounds with
  | zero => exact fun h => by cases h
  | succ rounds ih =>
    intro active counters r h
    rw [repair] at h
    obtain ⟨round, hround, h⟩ := andThen_eq_ok.mp h
    dsimp only at h
    split_ifs at h with he
    · cases h
      obtain ⟨-, -, hp⟩ :=
        (repairSources_cases hmatching hjoins fuel (anchors fine) (∅, 0)).2 round hround
      exact hp.imp fun hpr hd => (hpr hd).1 he
    · exact ih h

theorem repairUntangled_of_repair {fuel rounds : ℕ} {counters : Counters}
    {result : (Fin selected.length → Bool) × Counters}
    (h : repair mode fine selected.get fuel rounds (fun _ => true) counters = .ok result) :
    RepairUntangled mode fine selected := by
  -- the rounds from every set that is reached end as well
  have he : ∀ active, RoundReached mode fine selected active → ∃ rounds counters result,
        repair mode fine selected.get fuel rounds active counters = .ok result := by
    intro active hr
    induction hr with
    | first => exact ⟨rounds, counters, result, h⟩
    | @next active fuel' removed hr hround hremove ih =>
      obtain ⟨rounds, counters, result, h⟩ := ih
      cases rounds with
      | zero => cases h
      | succ rounds =>
        rw [repair] at h
        obtain ⟨round, hrn', h⟩ := andThen_eq_ok.mp h
        obtain rfl := (repairRound_stable active).eq hround hrn'
        dsimp only at h
        rw [if_neg hremove] at h
        exact ⟨rounds, _, result, h⟩
  intro active hr
  obtain ⟨rounds, counters, result, h⟩ := he active hr
  cases rounds with
  | zero => cases h
  | succ rounds =>
    rw [repair] at h
    obtain ⟨round, hround, -⟩ := andThen_eq_ok.mp h
    obtain ⟨-, -, hp⟩ :=
      (repairSources_cases hmatching hjoins fuel (anchors fine) (∅, 0)).2 round hround
    exact hp.imp fun hpr hd => (hpr hd).2

theorem exists_repair (hu : RepairUntangled mode fine selected) :
    ∀ {count : ℕ} {active : Fin selected.length → Bool}, RoundReached mode fine selected active →
      (Finset.univ.filter fun merge => active merge = true).card ≤ count →
      ∀ counters, ∃ fuel result,
        repair mode fine selected.get fuel (count + 1) active counters = .ok result := by
  intro count
  induction count with
  | zero =>
    intro active hr hc counters
    obtain ⟨fuel, round, hround⟩ := exists_repairSources hmatching hjoins (anchors fine)
      (hu active hr) (∅, 0)
    refine ⟨fuel, ?_⟩
    -- a round removes active merges only, and there are none
    have he : round.1 = ∅ := by
      obtain ⟨-, ha, -⟩ :=
        (repairSources_cases hmatching hjoins fuel (anchors fine) (∅, 0)).2 round hround
      rw [Finset.eq_empty_iff_forall_notMem]
      intro merge hmm
      have hy := (ha merge hmm).resolve_left (Finset.notMem_empty merge)
      have hn := Finset.card_eq_zero.mp (Nat.le_zero.mp hc)
      rw [Finset.filter_eq_empty_iff] at hn
      exact hn (Finset.mem_univ merge) hy
    exact repair_last 0 counters hround he
  | succ count ih =>
    intro active hr hc counters
    obtain ⟨fuel, round, hround⟩ := exists_repairSources hmatching hjoins (anchors fine)
      (hu active hr) (∅, 0)
    obtain ⟨-, ha, -⟩ :=
      (repairSources_cases hmatching hjoins fuel (anchors fine) (∅, 0)).2 round hround
    by_cases he : round.1 = ∅
    · exact ⟨fuel, repair_last _ counters hround he⟩
    · have hl : (Finset.univ.filter fun merge =>
          (active merge && decide (merge ∉ round.1)) = true).card ≤ count := by
        obtain ⟨merge, hmr⟩ := Finset.nonempty_iff_ne_empty.mpr he
        have hsm : (Finset.univ.filter fun merge =>
            (active merge && decide (merge ∉ round.1)) = true).card <
              (Finset.univ.filter fun merge => active merge = true).card := by
          refine Finset.card_lt_card ⟨fun m hm => ?_, fun hs => ?_⟩
          · rw [Finset.mem_filter, Bool.and_eq_true] at hm
            exact Finset.mem_filter.mpr ⟨hm.1, hm.2.1⟩
          · have hy := (ha merge hmr).resolve_left (Finset.notMem_empty merge)
            have hmm := hs (Finset.mem_filter.mpr ⟨Finset.mem_univ merge, hy⟩)
            rw [Finset.mem_filter, Bool.and_eq_true, decide_eq_true_eq] at hmm
            exact hmm.2.2 hmr
        omega
      let counters' : Counters := { counters with
        rejectedMargin := counters.rejectedMargin + round.1.card
        marginRepairRounds := counters.marginRepairRounds + 1
        marginDistanceSearches := counters.marginDistanceSearches + round.2 }
      obtain ⟨fuel', result, hrs⟩ := ih (hr.next hround he) hl counters'
      refine ⟨max fuel fuel', result, andThen_eq_ok.mpr ⟨round,
        repairRound_stable active _ _ _ (Nat.le_max_left _ _) hround, ?_⟩⟩
      dsimp only
      rw [if_neg he]
      exact repair_stable _ _ _ _ _ _ (Nat.le_max_right _ _) hrs

end rounds

end EmuFlow.Coarsener
