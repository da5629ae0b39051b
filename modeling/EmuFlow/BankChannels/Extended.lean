import EmuFlow.BankChannels.Expanded

/-!
# Costs without a bound

Without a bound on the costs `assign` can miss an assignment: a node at the distance `infinity` or
farther counts as unreached. It fails to bind all lefts only when some choice for fewer of them has
no successor that costs less than `infinity` more, and whether it has one does not depend on the
network, the compressed one or the expanded one.
-/

namespace EmuFlow.BankChannels

open Check ResidualGraph SortedSet Transport List

variable {capacities : List ℤ} {leftCount : ℕ} {candidates : List CandidateEdge}
  {graph : List (Arc Vertex)} {rows : List CostRow}

theorem map_fst_zip_sublist {α β : Type} : ∀ (l : List α) (m : List β),
    ((l.zip m).map Prod.fst).Sublist l
  | [], _ => by simp
  | _ :: _, [] => by simp
  | a :: l, b :: m => by simpa using map_fst_zip_sublist l m

theorem expanded_nodup_lefts : ((expandedEdges rows graph).map Lane.left).Nodup := by
  refine nodup_iff_count_le_one.mpr fun left => ?_
  have hm := nodup_iff_count_le_one.mp ((members_perm rows).nodup_iff.mpr nodup_range) left
  refine le_trans ?_ hm
  rw [expandedEdges, map_flatMap]
  conv_rhs => rw [← zipIdx_map_fst 0 (typeRows rows), flatMap_map]
  rw [count_flatMap, count_flatMap]
  refine sum_le_sum fun type _ => ?_
  refine Sublist.count_le left ?_
  dsimp only
  rw [map_map]
  exact map_fst_zip_sublist _ _

section

variable (ha : Ranged capacities leftCount candidates)
include ha

theorem choice_expand (h : Compressible capacities leftCount candidates rows) {lanes : List Lane}
    (hl : Choice (compressedNetwork capacities.length rows) lanes) :
    ∃ c, Choice (flowNetwork capacities leftCount candidates) c ∧
      c.length = lanes.length ∧ (c.map Lane.cost).sum = (lanes.map Lane.cost).sum := by
  obtain ⟨graph, -, hc, -, -⟩ := exists_flow network_compressed hl
  have hin : ∀ lane ∈ chosen graph,
      lane ∈ Transport.lanes (compressedNetwork capacities.length rows) := by
    rw [hc]
    exact fun lane hla => hl.sublist.subset hla
  have hf : ∀ type ∈ (typeRows rows).zipIdx,
      (selectedOf graph type.2).length ≤ (membersOf rows type.1).length := by
    intro type ht
    have hle := hl.lefts type.2
    rw [demandCapacity_compressed ht, ← hc] at hle
    rw [selectedOf, length_sortedBy, length_map, ← countP_eq_length_filter]
    exact_mod_cast hle
  have he := expanded_ends hf hin
  rw [hc] at he
  have hlg := expanded_legal h hin
  have hnd := @expanded_nodup_lefts graph rows
  obtain ⟨c, hp, hs⟩ := Nodup.subperm (Nodup.of_map _ hnd) hlg
  have hcs := (hp.map fun edge => (edge.right, edge.cost)).trans he
  refine ⟨c, ⟨lanes_flowNetwork ▸ hs, fun right => ?_, fun left => ?_⟩, ?_, ?_⟩
  · have hr : c.countP (fun lane => lane.right = right) =
        lanes.countP fun lane => lane.right = right := by
      have hcn := hcs.countP_eq fun e => e.1 = right
      rwa [countP_map, countP_map] at hcn
    have hle := hl.rights right
    rw [supplyCapacity_compressed, ← h.getD_eq] at hle
    rw [supplyCapacity_flowNetwork, hr]
    exact hle
  · rw [demandCapacity_flowNetwork, hp.countP_eq, countP_left]
    split_ifs with hlf
    · exact_mod_cast nodup_iff_count_le_one.mp hnd left
    · rw [count_eq_zero_of_not_mem fun hm => ?_]
      · rfl
      · obtain ⟨edge, hed, rfl⟩ := mem_map.mp hm
        exact hlf (ha.range edge (hlg edge hed)).2.1
  · have hlt := hcs.length_eq
    rwa [length_map, length_map] at hlt
  · have hsm := (hcs.map Prod.snd).sum_eq
    rwa [map_map, map_map] at hsm

theorem extendable_iff (h : Compressible capacities leftCount candidates rows) :
    Extendable (compressedNetwork capacities.length rows) infinity leftCount ↔
      Extendable (flowNetwork capacities leftCount candidates) infinity leftCount := by
  have hcs : ∀ {c edges : List Lane}, c.Perm (edges.map (compress rows)) →
      c.length = edges.length ∧ (c.map Lane.cost).sum = (edges.map Lane.cost).sum := by
    intro c edges hp
    have hs := (hp.map Lane.cost).sum_eq
    rw [map_map] at hs
    exact ⟨by rw [hp.length_eq, length_map], hs⟩
  constructor
  · intro he edges hed hlg
    obtain ⟨c, hp, hc⟩ := choice_compress ha h hed
    obtain ⟨hsm, hs⟩ := hcs hp
    obtain ⟨lanes, hl, hm, hls⟩ := he c hc (by omega)
    obtain ⟨next, hn, hlg', hct⟩ := choice_expand ha h hl
    exact ⟨next, hn, by omega, by omega⟩
  · intro he lanes hl hlg
    obtain ⟨edges, hed, hsm, hs⟩ := choice_expand ha h hl
    obtain ⟨next, hn, hm, hls⟩ := he edges hed (by omega)
    obtain ⟨c, hp, hc⟩ := choice_compress ha h hn
    obtain ⟨hsm', hs'⟩ := hcs hp
    exact ⟨c, hc, by omega, by omega⟩

theorem assignByFlow_extendable : ∃ bound r, (∀ fuel ≥ bound,
      assignByFlow fuel capacities leftCount candidates = some r) ∧
      (∀ assigned, r = .ok assigned → Settles capacities leftCount candidates (.ok assigned)) ∧
      (r = .error noAssignment ↔
        ¬ Extendable (flowNetwork capacities leftCount candidates) infinity leftCount) := by
  obtain ⟨bound, solved, hs, hi⟩ := @solveFlow_extendable
    (flowNetwork capacities leftCount candidates) network_flowNetwork (fresh_flowNetwork ha)
    leftCount
  by_cases hf : solved.flow = leftCount
  · obtain ⟨bound', assigned, hr, hst⟩ := assignByFlow_full ha hs hf
    refine ⟨bound', .ok assigned, hr, fun other heq => ?_, fun h => ?_,
      fun h => absurd (hi.mp hf) h⟩
    · rw [← heq]
      exact hst
    · cases h
  · refine ⟨bound, .error noAssignment, fun fuel hfl => ?_, fun other heq => ?_,
      fun _ => fun he => hf (hi.mpr he), fun _ => rfl⟩
    · rw [assignByFlow, hs.run fuel hfl]
      dsimp only
      rw [if_pos hf]
    · cases heq

/-- **When `assign` misses an assignment**: the lefts do not all have one candidate, and a choice
for some of them cannot be extended below `infinity`. What it returns is optimal. -/
theorem assign_extendable
    {other : List CandidateEdge} (ho : Complete capacities leftCount candidates other) :
    ∃ bound r, (∀ fuel ≥ bound, assign fuel capacities leftCount candidates = some r) ∧
      (∀ assigned, r = .ok assigned → Settles capacities leftCount candidates (.ok assigned)) ∧
      (r = .error noAssignment ↔
        uniqueCandidates capacities.length leftCount candidates = none ∧
          ¬ Extendable (flowNetwork capacities leftCount candidates) infinity leftCount) := by
  cases hu : uniqueCandidates capacities.length leftCount candidates with
  | some edges =>
    have hr : ∀ fuel ≥ 0, assign fuel capacities leftCount candidates =
        some (assignUnique capacities edges) := fun fuel _ => by rw [assign, hu]
    refine ⟨0, _, hr, fun assigned heq => ?_, fun heq => ?_, fun h => absurd h.1 (by simp)⟩
    · rcases assignUnique_cases hu ho with ⟨r, hrs, hs⟩ | he
      · rw [← heq, hrs]
        exact hs
      · rw [he] at heq
        cases heq
    · rcases assignUnique_cases hu ho with ⟨r, hrs, -⟩ | he
      · rw [hrs] at heq
        cases heq
      · rw [he] at heq
        exact absurd (Except.error.inj heq) (by decide)
  | none =>
    have hfw : ∀ {fuel : ℕ},
        compressedAssignment fuel capacities leftCount candidates = some (.ok none) →
        assign fuel capacities leftCount candidates =
          assignByFlow fuel capacities leftCount candidates := by
      intro fuel hc
      rw [assign, hu]
      dsimp only
      rw [hc]
    obtain ⟨bound, r, hr, hs, hi⟩ := assignByFlow_extendable ha
    cases hrw : compressibleRows capacities leftCount candidates with
    | none =>
      refine ⟨bound, r, fun fuel hf => ?_, hs, by simpa using hi⟩
      rw [hfw (by rw [compressedAssignment, hrw]), hr fuel hf]
    | some rows =>
      have h := compressible_of_rows hrw
      obtain ⟨bound', solved, hsl, hff⟩ := @solveFlow_extendable
        (compressedNetwork capacities.length rows) network_compressed (fresh_compressed ha h)
        leftCount
      rw [extendable_iff ha h] at hff
      by_cases hfu : solved.flow = leftCount
      · obtain ⟨bound'', r?, hrs, hs'⟩ :=
          compressedAssignment_full h hrw hsl hfu
        cases r? with
        | none =>
          refine ⟨max bound bound'', r, fun fuel hf => ?_, hs, by simpa using hi⟩
          rw [hfw (hrs fuel (le_of_max_le_right hf)), hr fuel (le_of_max_le_left hf)]
        | some assigned =>
          refine ⟨bound'', .ok assigned, fun fuel hf => ?_, fun other heq => ?_, fun heq => ?_,
            fun hn => absurd (hff.mp hfu) hn.2⟩
          · rw [assign, hu]
            dsimp only
            rw [hrs fuel hf]
          · rw [← heq]
            exact hs' assigned rfl
          · cases heq
      · refine ⟨bound', .error noAssignment, fun fuel hf => ?_, fun other heq => ?_,
          fun _ => ⟨rfl, fun hex => hfu (hff.mpr hex)⟩, fun _ => rfl⟩
        · rw [assign, hu]
          dsimp only
          rw [compressedAssignment_stuck hrw hsl.run hfu fuel hf]
        · cases heq

end

end EmuFlow.BankChannels
