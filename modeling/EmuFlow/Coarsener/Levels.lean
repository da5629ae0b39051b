import EmuFlow.Coarsener.Matching
import EmuFlow.Coarsener.Preserve

/-!
# MFSPart coarsener: every level preserves the partition problem

Both kinds of level, the one that merges the nodes fixed to one part and the one of a matching,
preserve the problem, and with them every level of a run, of a graph whose weights stay in the
range of the machine's numbers.
-/

namespace EmuFlow.Coarsener

open List Outcome

variable {dims : ℕ}

/-- The weights of the nodes add up within 64 bits and those of the nets without rounding. -/
structure InRange (graph : Graph dims) : Prop where
  nonneg : ∀ node dimension, 0 ≤ (graph.nodes node).weights dimension
  sum_lt : ∀ dimension, ∑ node, (graph.nodes node).weights dimension < 2 ^ 63
  exact_nets : ∃ k, Binary64.Exact k (graph.nets.map Net.weight)

structure Preserves [NeZero dims] (input : Input dims) {fine : Graph dims}
    (level : LevelResult fine) : Prop where
  surjective : Function.Surjective level.fineToCoarse
  weights : ∀ (coarse : Fin level.clusters.length) dimension,
    (level.graph.nodes coarse).weights dimension =
      ∑ node, if level.fineToCoarse node = coarse then (fine.nodes node).weights dimension else 0
  /-- No coarse node merges different fixed parts. -/
  fixed_eq : ∀ x y p q, level.fineToCoarse x = level.fineToCoarse y →
    (fine.nodes x).fixedPart = some p → (fine.nodes y).fixedPart = some q → p = q
  /-- A coarse node is fixed to a part exactly when a member is. -/
  fixed_iff : ∀ (coarse : Fin level.clusters.length) part,
    (level.graph.nodes coarse).fixedPart = some part ↔
    ∃ node, level.fineToCoarse node = coarse ∧ (fine.nodes node).fixedPart = some part
  /-- A coarse node made by a merge is within the bounds, unless its members are fixed. -/
  bounds : ∀ x y dimension, level.fineToCoarse x = level.fineToCoarse y → x ≠ y →
    (∀ entry ∈ level.fixedMerges, entry.1 ≠ level.fineToCoarse x) →
    (level.graph.nodes (level.fineToCoarse x)).weights dimension ≤ input.coarseBounds dimension
  connectivity : ∀ (part : Type) [DecidableEq part] (assignment : Fin level.graph.size → part),
    connectivity level.graph.nets assignment =
      connectivity fine.nets (assignment ∘ level.fineToCoarse)
  cutCost : ∀ (part : Type) [DecidableEq part] (assignment : Fin level.graph.size → part),
    cutCost level.graph.nets assignment = cutCost fine.nets (assignment ∘ level.fineToCoarse)

section level

variable {fine : Graph dims} {level : LevelResult fine}

theorem surjective_of_nodup (hn : level.clusters.flatten.Nodup)
    (hne : ∀ cluster ∈ level.clusters, cluster ≠ []) :
    Function.Surjective level.fineToCoarse := by
  intro coarse
  have hc := hne _ (get_mem level.clusters coarse)
  obtain ⟨x, hx⟩ := exists_mem_of_ne_nil _ hc
  exact ⟨x, (fineToCoarse_eq hn).mpr hx⟩

theorem weights_of_nodup (hr : InRange fine) (hn : level.clusters.flatten.Nodup)
    (coarse : Fin level.clusters.length) (dimension : Fin dims) :
    (level.graph.nodes coarse).weights dimension = ∑ node, if level.fineToCoarse node = coarse then
        (fine.nodes node).weights dimension else 0 := by
  have hc : (level.clusters.get coarse).Nodup :=
    (nodup_flatten.mp hn).1 _ (get_mem level.clusters coarse)
  have hle : ((level.clusters.get coarse).map fun x => (fine.nodes x).weights dimension).sum ≤
      ∑ node, (fine.nodes node).weights dimension := by
    rw [← sum_toFinset _ hc]
    exact Finset.sum_le_univ_sum_of_nonneg fun x => hr.nonneg x dimension
  have hnd : (level.graph.nodes coarse).weights dimension =
      ((level.clusters.get coarse).map fun x => (fine.nodes x).weights dimension).sum :=
    clusterNode_weights fine.nodes dimension (level.clusters.get coarse)
      (fun x _ => hr.nonneg x dimension) (hle.trans_lt (hr.sum_lt dimension))
  rw [hnd, ← Finset.sum_filter, ← sum_toFinset _ hc]
  refine Finset.sum_congr ?_ fun _ _ => rfl
  ext x
  rw [mem_toFinset, Finset.mem_filter, fineToCoarse_eq hn]
  simp

theorem fixed_iff_of (hn : level.clusters.flatten.Nodup)
    (hf : ∀ x y p q, level.fineToCoarse x = level.fineToCoarse y →
      (fine.nodes x).fixedPart = some p → (fine.nodes y).fixedPart = some q → p = q)
    (coarse : Fin level.clusters.length) (part : ℕ) :
    (level.graph.nodes coarse).fixedPart = some part ↔
      ∃ node, level.fineToCoarse node = coarse ∧ (fine.nodes node).fixedPart = some part := by
  have hm : ∀ part, (level.graph.nodes coarse).fixedPart = some part →
      ∃ node, level.fineToCoarse node = coarse ∧ (fine.nodes node).fixedPart = some part := by
    intro part h
    obtain ⟨x, hx, hp⟩ := clusterNode_fixed h
    exact ⟨x, (fineToCoarse_eq hn).mpr hx, hp⟩
  constructor
  · exact hm part
  · rintro ⟨x, hx, hp⟩
    have hs : (level.graph.nodes coarse).fixedPart.isSome = true :=
      clusterNode_fixed_some ((fineToCoarse_eq hn).mp hx) (by rw [hp]; rfl)
    obtain ⟨value, hv⟩ := Option.isSome_iff_exists.mp hs
    obtain ⟨y, hy, hy'⟩ := hm value hv
    rw [hv, hf x y part value (hx.trans hy.symm) hp hy']

theorem rebuild_connectivity (hr : InRange fine) (level : LevelResult fine) (part : Type)
    [DecidableEq part] (assignment : Fin level.graph.size → part) :
    connectivity level.graph.nets assignment =
      connectivity fine.nets (assignment ∘ level.fineToCoarse) := by
  obtain ⟨k, he⟩ := hr.exact_nets
  rw [connectivity_eq, connectivity_eq]
  exact netCost_rebuildNets (by simp) he _

theorem rebuild_cutCost (hr : InRange fine) (level : LevelResult fine) (part : Type)
    [DecidableEq part] (assignment : Fin level.graph.size → part) :
    cutCost level.graph.nets assignment = cutCost fine.nets (assignment ∘ level.fineToCoarse) := by
  obtain ⟨k, he⟩ := hr.exact_nets
  rw [cutCost_eq, cutCost_eq]
  exact netCost_rebuildNets (by simp) he _

/-- The graph of a level is in range with the fine one. -/
theorem Preserves.inRange [NeZero dims] {input : Input dims} (h : Preserves input level)
    (hr : InRange fine) : InRange level.graph where
  nonneg := by
    intro coarse dimension
    refine (Finset.sum_nonneg fun node _ => ?_).trans_eq (h.weights coarse dimension).symm
    split_ifs
    · exact hr.nonneg node dimension
    · exact le_rfl
  sum_lt := by
    intro dimension
    have hs : ∑ coarse, (level.graph.nodes coarse).weights dimension =
        ∑ node, (fine.nodes node).weights dimension := by
      refine (Finset.sum_congr rfl fun coarse _ => h.weights coarse dimension).trans
        (Finset.sum_comm.trans (Finset.sum_congr rfl fun node _ => ?_))
      exact Fintype.sum_ite_eq (level.fineToCoarse node) _
    rw [hs]
    exact hr.sum_lt dimension
  exact_nets := by
    obtain ⟨k, he⟩ := hr.exact_nets
    exact ⟨k, exact_rebuildNets he⟩

end level

/-! ## the level of a matching -/

section build

variable {fine : Graph dims} {selected : List (Candidate fine.size)}
  {active : Fin selected.length → Bool} {counters : Counters}

theorem mem_mergeClusters {cluster : List (Fin fine.size)} :
    cluster ∈ mergeClusters selected active ↔
      ∃ merge, active merge = true ∧ cluster = (selected.get merge).nodes := by
  simp only [mergeClusters, mem_map, mem_filter, mem_finRange, true_and, Candidate.nodes, eq_comm]

theorem partial_mergeClusters (hm : Matching selected) :
    Partial (fun x => [x]) (mergeClusters selected active) where
  nodup := by
    rw [nodup_flatten]
    constructor
    · intro cluster hc
      obtain ⟨merge, -, rfl⟩ := mem_mergeClusters.mp hc
      simpa [Candidate.nodes] using hm.ne _ (get_mem selected merge)
    · rw [mergeClusters, pairwise_map]
      have hs : (finRange selected.length).Pairwise (· < ·) := pairwise_lt_finRange _
      refine (hs.filter active).imp fun {i j} hij => ?_
      intro node hi hj
      exact absurd (hm.eq_of_mem (i := i) (j := j) hi hj) hij.ne
  closed := by
    intro x hx y hy
    rw [mem_singleton.mp hy]
    exact hx

variable (active counters) in
theorem buildLevel_nodup (hm : Matching selected) :
    (buildLevel fine selected active counters).clusters.flatten.Nodup :=
  ((partial_mergeClusters hm).appendUnassigned _ Classes.singletons).nodup

theorem mem_buildLevel {cluster : List (Fin fine.size)}
    (h : cluster ∈ (buildLevel fine selected active counters).clusters) :
    (∃ merge, active merge = true ∧ cluster = (selected.get merge).nodes) ∨ ∃ x, cluster = [x] := by
  rcases mem_appendUnassigned h with hm | hs
  · exact .inl (mem_mergeClusters.mp hm)
  · exact .inr hs

theorem merge_of_fineToCoarse_eq {x y : Fin fine.size}
    (hs : (buildLevel fine selected active counters).fineToCoarse x =
      (buildLevel fine selected active counters).fineToCoarse y) (hne : x ≠ y) :
    ∃ merge, active merge = true ∧ (buildLevel fine selected active counters).clusters.get
        ((buildLevel fine selected active counters).fineToCoarse x) = (selected.get merge).nodes ∧
      ((selected.get merge).left = x ∧ (selected.get merge).right = y ∨
        (selected.get merge).left = y ∧ (selected.get merge).right = x) := by
  have hx := mem_get_fineToCoarse (buildLevel fine selected active counters) x
  have hy := mem_get_fineToCoarse (buildLevel fine selected active counters) y
  rw [← hs] at hy
  rcases mem_buildLevel (get_mem _ ((buildLevel fine selected active counters).fineToCoarse x))
    with ⟨merge, ha, hc⟩ | ⟨z, hc⟩
  · refine ⟨merge, ha, hc, ?_⟩
    rw [hc] at hx hy
    rcases mem_pair.mp hx with rfl | rfl
    · rcases mem_pair.mp hy with rfl | rfl
      · exact absurd rfl hne
      · exact .inl ⟨rfl, rfl⟩
    · rcases mem_pair.mp hy with rfl | rfl
      · exact .inr ⟨rfl, rfl⟩
      · exact absurd rfl hne
  · rw [hc] at hx hy
    exact absurd ((mem_singleton.mp hx).trans (mem_singleton.mp hy).symm) hne

variable [NeZero dims] {input : Input dims}

theorem buildLevel_preserves (hr : InRange fine) (hm : Matching selected)
    (hpd : ∀ c ∈ selected, Passed input fine c.left c.right) :
    Preserves input (buildLevel fine selected active counters) := by
  have hn := buildLevel_nodup active counters hm
  have hf : ∀ x y p q, (buildLevel fine selected active counters).fineToCoarse x =
      (buildLevel fine selected active counters).fineToCoarse y →
      (fine.nodes x).fixedPart = some p → (fine.nodes y).fixedPart = some q → p = q := by
    intro x y p q hs hp hq
    by_cases hne : x = y
    · rw [hne, hq] at hp
      exact (Option.some.inj hp).symm
    · obtain ⟨merge, -, -, hnd⟩ := merge_of_fineToCoarse_eq hs hne
      have hps := hpd _ (get_mem selected merge)
      rcases hnd with ⟨rfl, rfl⟩ | ⟨rfl, rfl⟩
      · exact hps.fixed_eq hp hq
      · exact (hps.fixed_eq hq hp).symm
  refine
    { surjective := surjective_of_nodup hn ?_
      weights := weights_of_nodup hr hn
      fixed_eq := hf
      fixed_iff := fixed_iff_of hn hf
      bounds := ?_
      connectivity := fun part _ => rebuild_connectivity hr _ part
      cutCost := fun part _ => rebuild_cutCost hr _ part }
  · intro cluster hc
    rcases mem_buildLevel hc with ⟨merge, -, rfl⟩ | ⟨x, rfl⟩
    · exact cons_ne_nil _ _
    · exact cons_ne_nil _ _
  · intro x y d hs hne _
    obtain ⟨merge, -, hc, -⟩ := merge_of_fineToCoarse_eq hs hne
    have hps := hpd _ (get_mem selected merge)
    show (clusterNode fine.nodes (List.get _ _)).weights d ≤ _
    rw [hc]
    exact hps.fits d

theorem coarsenOnce_preserves (hrn : InRange fine) {fuel level : ℕ} {result : LevelResult fine}
    (h : coarsenOnce input fine fuel level = ok result) : Preserves input result := by
  have hb : ∀ active counters,
      Preserves input (buildLevel fine (selectedMerges input fine level) active counters) :=
    fun active counters => buildLevel_preserves hrn matching_selectedMerges
      fun c hm => passed_of_mem_selectedMerges hm
  rw [coarsenOnce] at h
  split at h
  · cases h
    exact hb _ _
  · split_ifs at h
    · obtain ⟨repaired, -, hr⟩ := andThen_eq_ok.mp h
      cases hr
      exact hb _ _
    · cases h
      exact hb _ _

end build

/-! ## the level of the fixed nodes -/

section fixed

variable {fine : Graph dims}

theorem fixedMembers_cases (x : Fin fine.size) : fixedMembers fine x = [x] ∨
    ∃ part, (fine.nodes x).fixedPart = some part ∧
      fixedMembers fine x = membersByPart fine part ∧ (membersByPart fine part).length > 1 := by
  rw [fixedMembers]
  split
  · exact .inl rfl
  · next part hp =>
    split_ifs with hm
    · exact .inr ⟨part, hp, rfl, hm⟩
    · exact .inl rfl

theorem mem_membersByPart {x : Fin fine.size} {part : ℕ} :
    x ∈ membersByPart fine part ↔ (fine.nodes x).fixedPart = some part := by
  simp [membersByPart]

theorem classes_fixedMembers (fine : Graph dims) : Classes (fixedMembers fine) where
  self := mem_fixedMembers fine
  same := by
    intro x y hy
    rcases fixedMembers_cases x with hs | ⟨part, hp, hm, hmn⟩
    · rw [hs] at hy
      rw [mem_singleton.mp hy]
    · rw [hm, mem_membersByPart] at hy
      rw [hm, fixedMembers, hy]
      dsimp only
      rw [if_pos hmn]
  nodup := by
    intro x
    rcases fixedMembers_cases x with hs | ⟨part, -, hm, -⟩
    · rw [hs]
      exact nodup_singleton x
    · rw [hm]
      exact (nodup_finRange _).filter _

theorem mergeSameFixedParts_nodup (fine : Graph dims) :
    (mergeSameFixedParts fine).clusters.flatten.Nodup :=
  (Partial.appendUnassigned [] (classes_fixedMembers fine)
    ⟨nodup_nil, fun _ h => by simp [assigned] at h⟩).nodup

theorem mem_mergeSameFixedParts {cluster : List (Fin fine.size)}
    (h : cluster ∈ (mergeSameFixedParts fine).clusters) :
    (∃ x, cluster = [x]) ∨ ∃ part, cluster = membersByPart fine part ∧ cluster.length > 1 := by
  rcases mem_appendUnassigned h with hn | ⟨x, rfl⟩
  · exact absurd hn not_mem_nil
  · rcases fixedMembers_cases x with hs | ⟨part, -, hm, hmn⟩
    · exact .inl ⟨x, hs⟩
    · exact .inr ⟨part, hm, hm ▸ hmn⟩

theorem mergeSameFixedParts_preserves [NeZero dims] (input : Input dims) (hr : InRange fine) :
    Preserves input (mergeSameFixedParts fine) := by
  have hnd := mergeSameFixedParts_nodup fine
  have hc : ∀ x, (∃ z, (mergeSameFixedParts fine).clusters.get
        ((mergeSameFixedParts fine).fineToCoarse x) = [z]) ∨
      ∃ part, (mergeSameFixedParts fine).clusters.get
        ((mergeSameFixedParts fine).fineToCoarse x) = membersByPart fine part ∧
        ((mergeSameFixedParts fine).clusters.get
          ((mergeSameFixedParts fine).fineToCoarse x)).length > 1 :=
    fun x => mem_mergeSameFixedParts (get_mem _ _)
  have hf : ∀ x y p q, (mergeSameFixedParts fine).fineToCoarse x =
      (mergeSameFixedParts fine).fineToCoarse y →
      (fine.nodes x).fixedPart = some p → (fine.nodes y).fixedPart = some q → p = q := by
    intro x y p q hs hp hq
    have hx := mem_get_fineToCoarse (mergeSameFixedParts fine) x
    have hy := mem_get_fineToCoarse (mergeSameFixedParts fine) y
    rw [← hs] at hy
    rcases hc x with ⟨z, hz⟩ | ⟨part, hpr, -⟩
    · rw [hz] at hx hy
      rw [(mem_singleton.mp hx).trans (mem_singleton.mp hy).symm, hq] at hp
      exact (Option.some.inj hp).symm
    · rw [hpr, mem_membersByPart] at hx hy
      rw [hx] at hp
      rw [hy] at hq
      exact (Option.some.inj hp).symm.trans (Option.some.inj hq)
  refine
    { surjective := surjective_of_nodup hnd ?_
      weights := weights_of_nodup hr hnd
      fixed_eq := hf
      fixed_iff := fixed_iff_of hnd hf
      bounds := ?_
      connectivity := fun part _ => rebuild_connectivity hr _ part
      cutCost := fun part _ => rebuild_cutCost hr _ part }
  · intro cluster hm
    rcases mem_mergeSameFixedParts hm with ⟨x, rfl⟩ | ⟨part, -, hmn⟩
    · exact cons_ne_nil _ _
    · rintro rfl
      exact absurd hmn (Nat.not_lt_zero 1)
  · intro x y d hs hne hfr
    have hx := mem_get_fineToCoarse (mergeSameFixedParts fine) x
    have hy := mem_get_fineToCoarse (mergeSameFixedParts fine) y
    rw [← hs] at hy
    rcases hc x with ⟨z, hz⟩ | ⟨part, -, hmn⟩
    · rw [hz] at hx hy
      exact absurd ((mem_singleton.mp hx).trans (mem_singleton.mp hy).symm) hne
    · -- a cluster of several nodes is recorded as a fixed merge
      let coarse := (mergeSameFixedParts fine).fineToCoarse x
      have he : ((coarse : ℕ), (mergeSameFixedParts fine).clusters.get coarse) ∈
          (mergeSameFixedParts fine).fixedMerges := by
        refine mem_map.mpr ⟨((mergeSameFixedParts fine).clusters.get coarse, (coarse : ℕ)),
          mem_filter.mpr ⟨?_, by simpa using hmn⟩, rfl⟩
        rw [List.mem_zipIdx_iff_getElem?]
        exact List.getElem?_eq_getElem coarse.isLt
      exact absurd rfl (hfr _ he)

end fixed

/-! ## every level of a run -/

def Levels.All (P : ∀ {fine : Graph dims}, LevelResult fine → Prop) :
    ∀ {graph : Graph dims}, Levels graph → Prop
  | _, .done _ => True
  | _, .next level rest => P level ∧ rest.All P

def Levels.coarsest : ∀ {graph : Graph dims}, Levels graph → Graph dims
  | graph, .done _ => graph
  | _, .next _ rest => rest.coarsest

def Levels.project {part : Type} : ∀ {graph : Graph dims} (levels : Levels graph),
    (Fin levels.coarsest.size → part) → Fin graph.size → part
  | _, .done _, assignment => assignment
  | _, .next level rest, assignment => rest.project assignment ∘ level.fineToCoarse

section run

variable [NeZero dims] {input : Input dims} {part : Type} [DecidableEq part]

theorem connectivity_project : ∀ {graph : Graph dims} {levels : Levels graph},
    levels.All (Preserves input) → ∀ a : Fin levels.coarsest.size → part,
      connectivity levels.coarsest.nets a =
        connectivity graph.nets (levels.project a)
  | _, .done _, _, _ => rfl
  | _, .next level rest, h, a => by
    rw [Levels.project, ← h.1.connectivity part (rest.project a)]
    exact connectivity_project h.2 a

theorem cutCost_project : ∀ {graph : Graph dims} {levels : Levels graph},
    levels.All (Preserves input) → ∀ a : Fin levels.coarsest.size → part,
      cutCost levels.coarsest.nets a = cutCost graph.nets (levels.project a)
  | _, .done _, _, _ => rfl
  | _, .next level rest, h, a => by
    rw [Levels.project, ← h.1.cutCost part (rest.project a)]
    exact cutCost_project h.2 a

theorem coarsenLevels_preserves {fuel : ℕ} :
    ∀ {remaining level : ℕ} {fine : Graph dims} {levels : Levels fine}, InRange fine →
      coarsenLevels input fuel remaining level fine = ok levels →
      levels.All (Preserves input)
  | 0, _, fine, levels, _, h => by
    cases h
    trivial
  | remaining + 1, level, fine, levels, hrn, h => by
    rw [coarsenLevels] at h
    obtain ⟨r, ho, h⟩ := andThen_eq_ok.mp h
    have hr := coarsenOnce_preserves hrn ho
    split_ifs at h
    · cases h
      trivial
    · cases h
      exact ⟨hr, trivial⟩
    · obtain ⟨rest, hrs, h⟩ := andThen_eq_ok.mp h
      cases h
      exact ⟨hr, coarsenLevels_preserves (hr.inRange hrn) hrs⟩

theorem run_all_preserves (hr : InRange input.graph) {fuel : ℕ} {levels : Levels input.graph}
    (h : run input fuel = Outcome.ok levels) : levels.All (Preserves input) := by
  rw [run] at h
  split_ifs at h
  · obtain ⟨rest, hrs, h⟩ := andThen_eq_ok.mp h
    cases h
    have hf := mergeSameFixedParts_preserves input hr
    exact ⟨hf, coarsenLevels_preserves (hf.inRange hr) hrs⟩
  · exact coarsenLevels_preserves hr h

/-- Every level of a run preserves the partition problem, and so do all of them together. -/
theorem run_preserves (hrange : InRange input.graph) {fuel : ℕ} {levels : Levels input.graph}
    (h : run input fuel = Outcome.ok levels) :
    levels.All (Preserves input) ∧
      ∀ (part : Type) [DecidableEq part] (assignment : Fin levels.coarsest.size → part),
        connectivity levels.coarsest.nets assignment =
            connectivity input.graph.nets (levels.project assignment) ∧
          cutCost levels.coarsest.nets assignment =
            cutCost input.graph.nets (levels.project assignment) :=
  ⟨run_all_preserves hrange h, fun _ _ assignment =>
    ⟨connectivity_project (run_all_preserves hrange h) assignment,
      cutCost_project (run_all_preserves hrange h) assignment⟩⟩

end run

/-! ## a node heavier than the bound -/

def WithinBounds [NeZero dims] (input : Input dims) {fine : Graph dims}
    (level : LevelResult fine) : Prop :=
  ∀ coarse : Fin level.clusters.length, (∀ entry ∈ level.fixedMerges, entry.1 ≠ coarse) →
    ∀ dimension, (level.graph.nodes coarse).weights dimension ≤ input.coarseBounds dimension

def overweight : Input 1 where
  stopDelta := 0
  maxLevels := 1
  seed := 0
  coarseBounds := ![5]
  margin := none
  graph :=
    { size := 3
      nodes := ![⟨none, false, ![1]⟩, ⟨none, false, ![1]⟩, ⟨none, false, ![10]⟩]
      nets := [{ source := 0, sinks := {1, 2}, weight := 1, source_not_sink := by decide
                 sinks_nonempty := by decide }] }
  size_pos := by decide
  maxLevels_pos := Nat.one_pos
  bounds_pos := by decide
  front_pos := by decide
  weights_nonneg := by decide
  weight_pos := by decide +kernel
  fixed_lt := fun _ h => by cases h
  anchors_protected := fun h => by cases h

def overweightLevel : LevelResult overweight.graph :=
  buildLevel overweight.graph (selectedMerges overweight overweight.graph 0) (fun _ => true)
    (pairCounters overweight overweight.graph)

theorem run_overweight :
    run overweight 0 = ok (.next overweightLevel (.done overweightLevel.graph)) := by
  have hr : ¬(overweight.graph.size : ℤ) - overweightLevel.graph.size ≤
      overweight.stopDelta := by decide +kernel
  have hs : ¬overweightLevel.graph.size ≤ 1 := by decide +kernel
  have ho : coarsenOnce overweight overweight.graph 0 0 = ok overweightLevel := rfl
  show coarsenLevels overweight 0 1 0 overweight.graph = _
  rw [coarsenLevels, ho, andThen_ok, if_neg hr, if_neg hs]
  rfl

theorem overweight_kept : ∃ levels, run overweight 0 = Outcome.ok levels ∧
    ¬levels.All (WithinBounds overweight) := by
  refine ⟨_, run_overweight, fun h => ?_⟩
  have hlength : overweightLevel.clusters.length = 2 := by decide +kernel
  have hheavy : ∃ coarse : Fin overweightLevel.clusters.length,
      overweight.coarseBounds 0 < (overweightLevel.graph.nodes coarse).weights 0 := by
    decide +kernel
  obtain ⟨coarse, hheavy⟩ := hheavy
  exact absurd (h.1 coarse (fun _ hmem => absurd hmem not_mem_nil) 0) (not_le.mpr hheavy)

theorem overweight_preserved :
    (Levels.next overweightLevel (.done overweightLevel.graph)).All (Preserves overweight) := by
  refine (run_preserves ⟨by decide, by decide, 0, by decide, by decide, ?_, by decide +kernel⟩
    run_overweight).1
  exact List.forall_mem_singleton.mpr (Binary64.mem_grid.mpr ⟨1, by simp⟩)

end EmuFlow.Coarsener
