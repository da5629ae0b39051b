import EmuFlow.BankChannels.Compressed
import EmuFlow.BankChannels.Unique

/-!
# The expanded flow

The members of each type take its rights. When every type has as many rights as members the result
binds every left, at the cost of the flow; the checks of its residual edges are what certifies it.
-/

namespace EmuFlow.BankChannels

open Check ResidualGraph SortedSet Transport List

variable {capacities : List ℤ} {leftCount : ℕ} {candidates edges : List CandidateEdge}
  {graph : List (Arc Vertex)} {potentials : Vertex → ℤ} {rows : List CostRow} {row : CostRow}
  {solved : Solved Vertex}

theorem mem_selectedOf {type : ℕ} {entry : ℕ × ℤ} : entry ∈ selectedOf graph type ↔
    (⟨entry.1, type, entry.2⟩ : Lane) ∈ chosen graph := by
  rw [selectedOf, mem_sortedBy, mem_map]
  constructor
  · rintro ⟨lane, hl, rfl⟩
    obtain ⟨hin, hlf⟩ := mem_filter.mp hl
    have heq : lane.left = type := of_decide_eq_true hlf
    rw [← heq]
    exact hin
  · exact fun hin => ⟨_, mem_filter.mpr ⟨hin, decide_eq_true rfl⟩, rfl⟩

def Balanced (rows : List CostRow) (graph : List (Arc Vertex)) : Prop :=
  ∀ type ∈ (typeRows rows).zipIdx, (selectedOf graph type.2).length = (membersOf rows type.1).length

theorem expanded_perm (h : Balanced rows graph) :
    ((expandedEdges rows graph).map Lane.left).Perm (List.range rows.length) := by
  have hm : (expandedEdges rows graph).map Lane.left =
      (typeRows rows).flatMap (membersOf rows) := by
    rw [expandedEdges, map_flatMap]
    conv_rhs => rw [← zipIdx_map_fst 0 (typeRows rows), flatMap_map]
    refine flatMap_congr fun type ht => ?_
    rw [map_map]
    exact map_fst_zip (h type ht).ge
  rw [hm]
  exact members_perm rows

theorem expanded_legal (h : Compressible capacities leftCount candidates rows)
    (hc : ∀ lane ∈ chosen graph, lane ∈ lanes (compressedNetwork capacities.length rows)) :
    ∀ edge ∈ expandedEdges rows graph, edge ∈ candidates := by
  intro edge hed
  obtain ⟨⟨row, type⟩, ht, he⟩ := mem_flatMap.mp hed
  obtain ⟨⟨left, e⟩, hz, rfl⟩ := mem_map.mp he
  obtain ⟨hm, hs⟩ := of_mem_zip hz
  obtain ⟨row', ht', hin⟩ := mem_lanes_compressed.mp (hc _ (mem_selectedOf.mp hs))
  have hr : row' = row := Option.some.inj <|
    (List.mk_mem_zipIdx_iff_getElem?.mp ht').symm.trans
      (List.mk_mem_zipIdx_iff_getElem?.mp ht)
  rw [hr] at hin
  exact h.entry_mem hin hm

theorem expanded_ends (h : ∀ type ∈ (typeRows rows).zipIdx,
      (selectedOf graph type.2).length ≤ (membersOf rows type.1).length)
    (hc : ∀ lane ∈ chosen graph, lane ∈ lanes (compressedNetwork capacities.length rows)) :
    ((expandedEdges rows graph).map fun edge => (edge.right, edge.cost)).Perm
      ((chosen graph).map fun lane => (lane.right, lane.cost)) := by
  have hty : ∀ lane ∈ chosen graph, lane.left ∈ (typeRows rows).zipIdx.map Prod.snd := by
    intro lane hl
    obtain ⟨row, ht, -⟩ := mem_lanes_compressed.mp (hc lane hl)
    exact mem_map_of_mem ht
  have hn : ((typeRows rows).zipIdx.map Prod.snd).Nodup := by
    rw [zipIdx_map_snd]
    exact nodup_range'
  have hp := @Keyed.flatMap_filter_perm _ _ _ Lane.left _ (chosen graph) hn hty
  refine Perm.trans ?_ (hp.map fun lane => (lane.right, lane.cost))
  rw [expandedEdges, map_flatMap, map_flatMap, flatMap_map]
  refine Perm.flatMap_left _ fun type ht => ?_
  have hs := map_snd_zip (h type ht)
  rw [map_map]
  refine Perm.trans (Perm.of_eq ?_) (sortedBy_perm rowKey _)
  exact hs

theorem expanded_total (h : Balanced rows graph)
    (hc : ∀ lane ∈ chosen graph, lane ∈ lanes (compressedNetwork capacities.length rows)) :
    ((expandedEdges rows graph).map Lane.cost).sum = ((chosen graph).map Lane.cost).sum := by
  have he := (expanded_ends (fun type ht => (h type ht).le) hc).map Prod.snd
  rw [map_map, map_map] at he
  exact he.sum_eq

section

variable (h : Compressible capacities leftCount candidates rows)
include h

theorem reduced_of_residual (hlt : edges.map Lane.left = List.range leftCount)
    (hlg : ∀ edge ∈ edges, edge ∈ candidates) {choice : List CandidateEdge}
    (hpr : choice.Perm edges)
    (hrs : residualHolds capacities.length candidates edges potentials) :
    Reduced capacities leftCount candidates choice potentials := by
  obtain ⟨-, ht, ho, hrh, hs⟩ := hrs
  refine ⟨fun right hr => ?_, fun c hc hn => ?_, fun edge he => ?_,
    fun left hl => ?_⟩
  · have hpt := hrh right hr
    rw [h.getD_eq, if_pos hr, hpr.countP_eq, countP_right]
    constructor
    · intro hf
      rw [if_neg fun hin => ?_] at hpt
      · exact hpt
      · have hp := count_pos_iff.mpr hin
        omega
    · intro hu
      rwa [if_pos (count_pos_iff.mp hu)] at hpt
  · rcases ho c hc with ⟨edge, he, hl, hr⟩ | hle
    · have heq := h.candidate_ext (hlg edge he) hc hl hr
      exact absurd (hpr.mem_iff.mpr (heq ▸ he)) hn
    · omega
  · have hle := ht edge (hpr.mem_iff.mp he)
    omega
  · have hm : left ∈ edges.map Lane.left := by
      rw [hlt]
      exact mem_range.mpr hl
    obtain ⟨edge, he, rfl⟩ := mem_map.mp hm
    exact hs edge he

theorem expand_settles
    (hfr : solved.graph.map Arc.frame = (compressedNetwork capacities.length rows).map Arc.frame)
    (hfl : Flow solved.graph .source .sink leftCount)
    (htt : ResidualGraph.cost solved.graph = solved.totalCost) {result : AssignmentResult}
    (hex : expand capacities.length candidates rows solved potentials = some result) :
    Settles capacities leftCount candidates (.ok result) := by
  unfold expand at hex
  dsimp only at hex
  split_ifs at hex with hbd
  cases hex
  rw [not_or, not_not] at hbd
  obtain ⟨hsz, hrs⟩ := hbd
  have hbl : Balanced rows solved.graph := fun type hty => by
    by_contra hne
    exact hsz ⟨type, hty, hne⟩
  obtain ⟨hch, -, hct⟩ := chosen_of_flow network_compressed.shaped hfr hfl
  have hcs := fun lane hln => hch.sublist.subset (a := lane) hln
  have hlt := expanded_perm hbl
  obtain ⟨hlf, hpm⟩ := lefts_flatMap_filter hlt
  have hlg : ∀ edge ∈ _, edge ∈ candidates := fun edge hed =>
    expanded_legal h hcs edge (hpm.mem_iff.mp hed)
  rw [h.length] at hlf hlg hpm hrs ⊢
  have hcm : Complete capacities leftCount candidates ((List.range leftCount).flatMap
      fun left => (expandedEdges rows solved.graph).filter fun edge => edge.left = left) := by
    refine ⟨hlf, hlg, fun right => ?_⟩
    rw [countP_right, h.getD_eq]
    split_ifs with hrg
    · exact_mod_cast nodup_iff_count_le_one.mp hrs.1 right
    · rw [count_eq_zero_of_not_mem fun hin => ?_]
      · rfl
      · obtain ⟨edge, hed, rfl⟩ := mem_map.mp hin
        exact hrg (h.range edge (hlg edge hed)).2
  obtain ⟨c, hpr, hch'⟩ := choice_of_complete hcm
  refine settles_of_reduced h.nodup hch' hpr hlf ?_
    (reduced_of_residual h hlf hlg hpr hrs)
  rw [(hpm.map Lane.cost).sum_eq, expanded_total hbl hcs, ← hct, htt]

theorem compressedAssignment_full
    (hr : compressibleRows capacities leftCount candidates = some rows) {bound : ℕ}
    (hs : Solving (compressedNetwork capacities.length rows) leftCount bound solved)
    (hf : solved.flow = leftCount) : ∃ bound r?, (∀ fuel ≥ bound,
      compressedAssignment fuel capacities leftCount candidates = some (.ok r?)) ∧
      ∀ r, r? = some r → Settles capacities leftCount candidates (.ok r) := by
  have hfl := hs.flow
  rw [hf] at hfl
  obtain ⟨price, hp⟩ := hs.priced
  obtain ⟨bound', potentials, hc, -⟩ := @certificatePotentials_spec _ _ solved.graph
    (flowNodes capacities.length (typeRows rows).length) negativeCycle price hp
    (within_of_same (nodes_compressed h) hs.frame) invalidCertificate
  refine ⟨max bound bound', expand capacities.length candidates rows solved potentials,
    fun fuel hfu => ?_, fun r he =>
      expand_settles h hs.frame hfl hs.total he⟩
  rw [compressedAssignment, hr]
  dsimp only
  rw [hs.run fuel (le_of_max_le_left hfu)]
  dsimp only
  rw [if_neg (not_not.mpr hf), hc fuel (le_of_max_le_right hfu)]

end

theorem compressedAssignment_stuck
    (hr : compressibleRows capacities leftCount candidates = some rows) {bound : ℕ}
    (hrn : ∀ fuel ≥ bound, solveFlow fuel leftCount (compressedNetwork capacities.length rows) =
      some (.ok solved)) (hf : solved.flow ≠ leftCount) : ∀ fuel ≥ bound,
      compressedAssignment fuel capacities leftCount candidates = some (.error noAssignment) := by
  intro fuel hfl
  rw [compressedAssignment, hr]
  dsimp only
  rw [hrn fuel hfl]
  dsimp only
  rw [if_pos hf]

theorem compressedAssignment_settles (ha : Accepted capacities leftCount candidates) :
    ∃ bound r, (∀ fuel ≥ bound,
      compressedAssignment fuel capacities leftCount candidates = some r) ∧
      (r = .ok none ∨ (∃ assigned, r = .ok (some assigned) ∧
        Settles capacities leftCount candidates (.ok assigned)) ∨
      ∃ e, r = .error e ∧ Settles capacities leftCount candidates (.error e)) := by
  cases hr : compressibleRows capacities leftCount candidates with
  | none => exact ⟨0, .ok none, fun fuel _ => by rw [compressedAssignment, hr], .inl rfl⟩
  | some rows =>
    have h := compressible_of_rows hr
    obtain ⟨bound, solved, hrn, ho⟩ := solveFlow_spec (fresh_compressed ha.toRanged h)
      ((sum_compressed_le ha.toRanged h).trans_lt ha.sum) leftCount
    by_cases hf : solved.flow = leftCount
    · obtain ⟨bound', r?, hrs, hs⟩ := compressedAssignment_full h hr
        ⟨hrn, ho.frame, ho.flow, ho.total, ho.priced⟩ hf
      refine ⟨bound', .ok r?, hrs, ?_⟩
      cases r? with
      | none => exact .inl rfl
      | some assigned => exact .inr (.inl ⟨assigned, rfl, hs assigned rfl⟩)
    · exact ⟨bound, .error noAssignment, compressedAssignment_stuck hr hrn hf,
        .inr (.inr ⟨_, rfl, compressed_stuck ha.toRanged h (stuck_of_optimal ho hf)⟩)⟩

/-! ## `assign` -/

theorem assign_settles (ha : Accepted capacities leftCount candidates) :
    ∃ bound result, (∀ fuel ≥ bound, assign fuel capacities leftCount candidates = some result) ∧
      Settles capacities leftCount candidates result := by
  cases hu : uniqueCandidates capacities.length leftCount candidates with
  | some edges =>
    exact ⟨0, _, fun fuel _ => by rw [assign, hu], assignUnique_settles ha hu⟩
  | none =>
    obtain ⟨bound, result, hrn, hr⟩ := compressedAssignment_settles ha
    rcases hr with rfl | ⟨assigned, rfl, hs⟩ | ⟨e, rfl, hs⟩
    · obtain ⟨bound', result, hfl, hs⟩ := assignByFlow_settles ha
      refine ⟨max bound bound', result, fun fuel hf => ?_, hs⟩
      rw [assign, hu]
      dsimp only
      rw [hrn fuel (le_of_max_le_left hf)]
      exact hfl fuel (le_of_max_le_right hf)
    · refine ⟨bound, .ok assigned, fun fuel hf => ?_, hs⟩
      rw [assign, hu]
      dsimp only
      rw [hrn fuel hf]
    · refine ⟨bound, .error e, fun fuel hf => ?_, hs⟩
      rw [assign, hu]
      dsimp only
      rw [hrn fuel hf]

theorem Settles.isOk_iff {result : Except String AssignmentResult}
    (h : Settles capacities leftCount candidates result) :
    result.isOk = true ↔ ∃ assignment, Complete capacities leftCount candidates assignment := by
  cases h with
  | assigned hc _ _ _ => exact ⟨fun _ => ⟨_, hc⟩, fun _ => rfl⟩
  | none hn =>
    refine ⟨fun hok => ?_, fun ⟨assignment, h⟩ => absurd h (hn assignment)⟩
    cases hok

/-- **The assignment is optimal**: `assign` ends, it returns a result when a complete assignment
exists and only then, and the result is complete, of the least cost and certified by its
potentials. -/
theorem assign_optimal (ha : Accepted capacities leftCount candidates) :
    ∃ bound result, (∀ fuel ≥ bound, assign fuel capacities leftCount candidates = some result) ∧
      (result.isOk = true ↔ ∃ assignment, Complete capacities leftCount candidates assignment) ∧
      Settles capacities leftCount candidates result := by
  obtain ⟨bound, result, hrun, hsettles⟩ := assign_settles ha
  exact ⟨bound, result, hrun, hsettles.isOk_iff, hsettles⟩

def sharedRight : List CandidateEdge :=
  [⟨0, 0, 1⟩, ⟨1, 0, 5⟩, ⟨0, 1, 2⟩]

theorem sharedRight_accepted : Accepted [1, 1] 2 sharedRight := ⟨⟨by decide, by decide⟩, by decide⟩

theorem sharedRight_optimal : ∃ bound result,
    (∀ fuel ≥ bound, assign fuel [1, 1] 2 sharedRight = some result) ∧
      (result.isOk = true ↔ ∃ assignment, Complete [1, 1] 2 sharedRight assignment) ∧
      Settles [1, 1] 2 sharedRight result :=
  assign_optimal sharedRight_accepted

/-- A cost at the distance of an unreached node; the sum of the costs is below `2 ^ 61`. -/
def farLeft : List CandidateEdge :=
  [⟨0, 0, 2305843009213693951⟩, ⟨1, 1, 0⟩, ⟨2, 1, 0⟩]

theorem farLeft_unassigned :
    (∀ candidate ∈ farLeft, candidate.right < 3 ∧ candidate.left < 2 ∧ 0 ≤ candidate.cost) ∧
      (farLeft.map Lane.cost).sum < 2 ^ 61 ∧
      Complete [1, 1, 1] 2 farLeft [⟨0, 0, 2305843009213693951⟩, ⟨1, 1, 0⟩] ∧
      ((assign 20 [1, 1, 1] 2 farLeft).map fun result => result.map fun _ => ()) =
        some (.error noAssignment) := by
  refine ⟨by decide, by decide, ⟨by decide, by decide, fun right => ?_⟩, by decide +kernel⟩
  rcases right with _ | _ | _ | right <;> simp

end EmuFlow.BankChannels
