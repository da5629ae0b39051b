import EmuFlow.BankChannels.Assign
import EmuFlow.Lib.Keyed

/-!
# Certified assignments

Complete assignments are the choices of lanes of the network of `assign` that fill its lefts. A
result is certified by a flow of that network whose residual edges its potentials never undercut;
then no assignment costs less.
-/

namespace EmuFlow.BankChannels

open Check ResidualGraph SortedSet Transport List

variable {capacities : List ℤ} {leftCount : ℕ} {candidates : List CandidateEdge}

/-! ## assignments -/

/-- What the callers of `assign` keep. -/
structure Ranged (capacities : List ℤ) (leftCount : ℕ) (candidates : List CandidateEdge) :
    Prop where
  nonneg : ∀ capacity ∈ capacities, 0 ≤ capacity
  range : ∀ candidate ∈ candidates,
    candidate.right < capacities.length ∧ candidate.left < leftCount ∧ 0 ≤ candidate.cost

/-- The costs are below the distance of an unreached node. -/
structure Accepted (capacities : List ℤ) (leftCount : ℕ) (candidates : List CandidateEdge) : Prop
    extends Ranged capacities leftCount candidates where
  sum : (candidates.map Lane.cost).sum < infinity

structure Complete (capacities : List ℤ) (leftCount : ℕ) (candidates : List CandidateEdge)
    (assignment : List CandidateEdge) : Prop where
  lefts : assignment.map Lane.left = List.range leftCount
  legal : ∀ edge ∈ assignment, edge ∈ candidates
  rights : ∀ right, (assignment.countP fun edge => edge.right = right : ℤ) ≤ capacities.getD right 0

/-- The flow of a result over the expanded network, and its potentials: every residual edge has a
reduced cost of zero or more. -/
structure Certifies (capacities : List ℤ) (leftCount : ℕ) (candidates : List CandidateEdge)
    (result : AssignmentResult) (graph : List (Arc Vertex)) : Prop where
  frame : graph.map Arc.frame = (flowNetwork capacities leftCount candidates).map Arc.frame
  flow : Flow graph .source .sink leftCount
  lanes : (chosen graph).Perm result.assignment
  reduced : ∀ e ∈ steps graph, 0 < e.capacity →
    0 ≤ e.cost + result.potentials e.source - result.potentials e.target

inductive Settles (capacities : List ℤ) (leftCount : ℕ) (candidates : List CandidateEdge) :
    Except String AssignmentResult → Prop
  | assigned {result : AssignmentResult} :
    Complete capacities leftCount candidates result.assignment →
    result.totalCost = (result.assignment.map Lane.cost).sum →
    (∀ other, Complete capacities leftCount candidates other →
      result.totalCost ≤ (other.map Lane.cost).sum) →
    (∃ graph, Certifies capacities leftCount candidates result graph) →
    Settles capacities leftCount candidates (.ok result)
  | none : (∀ other, ¬ Complete capacities leftCount candidates other) →
    Settles capacities leftCount candidates (.error noAssignment)

variable {assignment : List CandidateEdge}

theorem Complete.nodup
    (h : Complete capacities leftCount candidates assignment) : assignment.Nodup :=
  Nodup.of_map Lane.left (h.lefts ▸ nodup_range)

theorem Complete.length
    (h : Complete capacities leftCount candidates assignment) : assignment.length = leftCount := by
  have hl := congrArg List.length h.lefts
  simpa using hl

theorem countP_left (edges : List CandidateEdge) (left : ℕ) :
    edges.countP (fun edge => edge.left = left) = (edges.map Lane.left).count left := by
  rw [List.count, countP_map]
  refine countP_congr fun edge _ => ?_
  simp

theorem countP_right (edges : List CandidateEdge) (right : ℕ) :
    edges.countP (fun edge => edge.right = right) = (edges.map Lane.right).count right := by
  rw [List.count, countP_map]
  refine countP_congr fun edge _ => ?_
  simp

theorem count_range_eq (left : ℕ) : ((List.range leftCount).count left : ℤ) =
    if left < leftCount then 1 else 0 := by
  split_ifs with hl
  · rw [count_eq_one_of_mem nodup_range (mem_range.mpr hl)]
    rfl
  · rw [count_eq_zero_of_not_mem fun hm => hl (mem_range.mp hm)]
    rfl

variable {edges : List CandidateEdge} {potentials : Vertex → ℤ}

theorem assignment_resultOf {totalCost : ℤ} (h : edges.map Lane.left = List.range leftCount) :
    (resultOf edges totalCost potentials).assignment = edges := by
  have hl : ∀ {i : ℕ} {edge : CandidateEdge}, edges[i]? = some edge → edge.left = i := by
    intro i edge he
    have hm : (edges.map Lane.left)[i]? = some edge.left := by rw [List.getElem?_map, he]; rfl
    rw [h] at hm
    obtain ⟨_, heq⟩ := List.getElem?_eq_some_iff.mp hm
    rw [getElem_range] at heq
    exact heq.symm
  refine ext_getElem? fun i => ?_
  simp only [AssignmentResult.assignment, resultOf, List.getElem?_map, List.getElem?_zipIdx,
    zip_map']
  cases he : edges[i]? with
  | none => rfl
  | some edge =>
    simp only [Option.map_some, Nat.zero_add]
    rw [← hl he]

/-! ## the network -/

@[simp] theorem supplyName_supplyArc (right : ℕ) (capacity : ℤ) :
    supplyName (supplyArc right capacity) = some right := rfl

@[simp] theorem supplyName_laneArc (lane : Lane) : supplyName (laneArc lane) = none := rfl

@[simp] theorem supplyName_demandArc (left : ℕ) (capacity : ℤ) :
    supplyName (demandArc left capacity) = none := rfl

@[simp] theorem demandName_supplyArc (right : ℕ) (capacity : ℤ) :
    demandName (supplyArc right capacity) = none := rfl

@[simp] theorem demandName_laneArc (lane : Lane) : demandName (laneArc lane) = none := rfl

@[simp] theorem demandName_demandArc (left : ℕ) (capacity : ℤ) :
    demandName (demandArc left capacity) = some left := rfl

@[simp] theorem laneOf_supplyArc (right : ℕ) (capacity : ℤ) :
    laneOf (supplyArc right capacity) = none := rfl

@[simp] theorem laneOf_laneArc (lane : Lane) : laneOf (laneArc lane) = some lane := rfl

@[simp] theorem laneOf_demandArc (left : ℕ) (capacity : ℤ) :
    laneOf (demandArc left capacity) = none := rfl

theorem shaped_supplyArc (right : ℕ) (capacity : ℤ) : Shaped (supplyArc right capacity) :=
  .supply right rfl rfl rfl

theorem shaped_laneArc (lane : Lane) : Shaped (laneArc lane) :=
  .lane lane.right lane.left rfl rfl rfl

theorem shaped_demandArc (left : ℕ) (capacity : ℤ) : Shaped (demandArc left capacity) :=
  .demand left rfl rfl rfl

theorem lanes_flowNetwork : lanes (flowNetwork capacities leftCount candidates) = candidates := by
  simp [lanes, flowNetwork, filterMap_append, filterMap_map, Function.comp_def]

theorem network_flowNetwork : Network (flowNetwork capacities leftCount candidates) := by
  refine ⟨fun arc ha => ?_, ?_, ?_⟩
  · simp only [flowNetwork, List.mem_append, mem_map] at ha
    rcases ha with (⟨_, _, rfl⟩ | ⟨_, _, rfl⟩) | ⟨_, _, rfl⟩
    · exact shaped_supplyArc _ _
    · exact shaped_laneArc _
    · exact shaped_demandArc _ _
  · have hn : (flowNetwork capacities leftCount candidates).filterMap supplyName =
        capacities.zipIdx.map Prod.snd := by
      simp [flowNetwork, filterMap_append, filterMap_map, Function.comp_def]
    rw [hn, zipIdx_map_snd]
    exact nodup_range'
  · have hn : (flowNetwork capacities leftCount candidates).filterMap demandName =
        List.range leftCount := by
      simp [flowNetwork, filterMap_append, filterMap_map, Function.comp_def]
    rw [hn]
    exact nodup_range

theorem supplyCapacity_flowNetwork (right : ℕ) :
    supplyCapacity right (flowNetwork capacities leftCount candidates) =
      capacities.getD right 0 := by
  by_cases hr : right < capacities.length
  · have ha : supplyArc right (capacities.getD right 0) ∈
        flowNetwork capacities leftCount candidates := by
      have hm : (capacities.getD right 0, right) ∈ capacities.zipIdx := by
        rw [List.mk_mem_zipIdx_iff_getElem?, getD_eq_getElem?_getD, List.getElem?_eq_getElem hr]
        rfl
      simp only [flowNetwork, List.mem_append, mem_map]
      exact .inl (.inl ⟨_, hm, rfl⟩)
    have hs : supplyCapacity right (flowNetwork capacities leftCount candidates) =
        (supplyArc right (capacities.getD right 0)).capacity +
          (supplyArc right (capacities.getD right 0)).reverse :=
      sum_named network_flowNetwork.supplies ha rfl
    rw [hs]
    exact add_zero _
  · have hnn : ∀ arc ∈ flowNetwork capacities leftCount candidates,
        supplyName arc ≠ some right := by
      intro arc ha hn
      simp only [flowNetwork, List.mem_append, mem_map] at ha
      rcases ha with (⟨entry, he, rfl⟩ | ⟨_, _, rfl⟩) | ⟨_, _, rfl⟩
      · have hlt := snd_lt_of_mem_zipIdx he
        have heq : entry.2 = right := Option.some.inj hn
        omega
      · cases hn
      · cases hn
    have hs : supplyCapacity right (flowNetwork capacities leftCount candidates) = 0 :=
      sum_unnamed hnn
    rw [hs, getD_eq_getElem?_getD, List.getElem?_eq_none (not_lt.mp hr)]
    rfl

theorem demandCapacity_flowNetwork (left : ℕ) :
    demandCapacity left (flowNetwork capacities leftCount candidates) =
      if left < leftCount then 1 else 0 := by
  split_ifs with hl
  · have ha : demandArc left 1 ∈ flowNetwork capacities leftCount candidates := by
      simp only [flowNetwork, List.mem_append, mem_map]
      exact .inr ⟨left, mem_range.mpr hl, rfl⟩
    have hs : demandCapacity left (flowNetwork capacities leftCount candidates) =
        (demandArc left 1).capacity + (demandArc left 1).reverse :=
      sum_named network_flowNetwork.demands ha rfl
    rw [hs]
    rfl
  · refine sum_unnamed fun arc ha hn => ?_
    simp only [flowNetwork, List.mem_append, mem_map] at ha
    rcases ha with (⟨_, _, rfl⟩ | ⟨_, _, rfl⟩) | ⟨index, hi, rfl⟩
    · cases hn
    · cases hn
    · rw [mem_range] at hi
      have heq : index = left := Option.some.inj hn
      omega

theorem fresh_flowNetwork (ha : Ranged capacities leftCount candidates) :
    ∀ arc ∈ flowNetwork capacities leftCount candidates,
      0 ≤ arc.capacity ∧ arc.reverse = 0 ∧ 0 ≤ arc.cost := by
  intro arc har
  simp only [flowNetwork, List.mem_append, mem_map] at har
  rcases har with (⟨entry, he, rfl⟩ | ⟨candidate, hc, rfl⟩) | ⟨_, _, rfl⟩
  · exact ⟨ha.nonneg _ (fst_mem_of_mem_zipIdx he), rfl, le_refl _⟩
  · exact ⟨zero_le_one, rfl, (ha.range candidate hc).2.2⟩
  · exact ⟨zero_le_one, rfl, le_refl _⟩

theorem sum_flowNetwork : ((flowNetwork capacities leftCount candidates).map Arc.cost).sum =
    (candidates.map Lane.cost).sum := by
  simp [flowNetwork, map_append, map_map, Function.comp_def, supplyArc, laneArc, demandArc]

/-! ## what certifies a result -/

/-- A complete assignment chooses lanes of the network. -/
theorem choice_of_complete (h : Complete capacities leftCount candidates assignment) :
    ∃ choice, choice.Perm assignment ∧
      Choice (flowNetwork capacities leftCount candidates) choice := by
  obtain ⟨choice, hp, hs⟩ := Nodup.subperm h.nodup h.legal
  refine ⟨choice, hp, lanes_flowNetwork ▸ hs, fun right => ?_, fun left => ?_⟩
  · rw [supplyCapacity_flowNetwork, hp.countP_eq]
    exact h.rights right
  · rw [demandCapacity_flowNetwork, hp.countP_eq, countP_left, h.lefts, count_range_eq]

variable {choice : List CandidateEdge}

theorem legal_of_choice (h : Choice (flowNetwork capacities leftCount candidates) choice) :
    ∀ edge ∈ choice, edge ∈ candidates := fun edge he => by
  rw [← @lanes_flowNetwork capacities leftCount candidates]
  exact h.sublist.subset he

theorem nodup_lefts_of_choice (h : Choice (flowNetwork capacities leftCount candidates) choice) :
    (choice.map Lane.left).Nodup := by
  refine nodup_iff_count_le_one.mpr fun left => ?_
  have hle := h.lefts left
  rw [demandCapacity_flowNetwork, countP_left] at hle
  split_ifs at hle <;> omega

theorem lefts_of_flow (ha : Ranged capacities leftCount candidates)
    (h : Choice (flowNetwork capacities leftCount candidates) choice)
    (hln : choice.length = leftCount) :
    (choice.map Lane.left).Perm (List.range leftCount) ∧ ∀ edge ∈ choice, edge ∈ candidates := by
  have hl := legal_of_choice h
  refine ⟨?_, hl⟩
  refine (Nodup.subperm (nodup_lefts_of_choice h) fun left hlf => ?_).perm_of_length_le ?_
  · obtain ⟨edge, he, rfl⟩ := mem_map.mp hlf
    exact mem_range.mpr (ha.range edge (hl edge he)).2.1
  · rw [length_range, length_map, hln]

/-- A certified flow settles the assignment. -/
theorem settles_of_certified {totalCost : ℤ}
    {graph : List (Arc Vertex)}
    (hfr : graph.map Arc.frame = (flowNetwork capacities leftCount candidates).map Arc.frame)
    (hf : Flow graph .source .sink leftCount) (hp : (chosen graph).Perm edges)
    (hl : edges.map Lane.left = List.range leftCount)
    (ht : totalCost = (edges.map Lane.cost).sum) (hpt : Potential graph potentials) :
    Settles capacities leftCount candidates (.ok (resultOf edges totalCost potentials)) := by
  obtain ⟨hcc, -, hcs⟩ := chosen_of_flow network_flowNetwork.shaped hfr hf
  have hs : (resultOf edges totalCost potentials).assignment = edges := assignment_resultOf hl
  refine .assigned ?_ (by rw [hs]; exact ht) (fun other ho => ?_)
    ⟨graph, hfr, hf, by rw [hs]; exact hp, fun e he hc => ?_⟩
  · rw [hs]
    refine ⟨hl, fun edge hed => ?_, fun right => ?_⟩
    · rw [← @lanes_flowNetwork capacities leftCount candidates]
      exact hcc.sublist.subset (hp.mem_iff.mpr hed)
    · rw [← hp.countP_eq, ← supplyCapacity_flowNetwork]
      exact hcc.rights right
  · obtain ⟨choice, hpr, hch⟩ := choice_of_complete ho
    obtain ⟨graph', hfr', hcn', hf', -⟩ := exists_flow network_flowNetwork hch
    obtain ⟨-, -, hcs'⟩ := chosen_of_flow network_flowNetwork.shaped hfr' hf'
    rw [hpr.length_eq, ho.length] at hf'
    have hle := cost_le_of_potential (hfr.trans hfr'.symm) hpt hf hf'
    rw [hcs, hcs', hcn', (hpr.map Lane.cost).sum_eq,
      (hp.map Lane.cost).sum_eq] at hle
    show totalCost ≤ _
    rw [ht]
    exact hle
  · have hle := hpt e he hc
    show 0 ≤ e.cost + potentials e.source - potentials e.target
    omega

theorem settles_of_stuck (h : ∀ other, other.map Arc.frame =
      (flowNetwork capacities leftCount candidates).map Arc.frame →
    ¬ Flow other .source .sink leftCount) :
    Settles capacities leftCount candidates (.error noAssignment) := by
  refine .none fun other ho => ?_
  obtain ⟨choice, hp, hc⟩ := choice_of_complete ho
  obtain ⟨graph, hfr, -, hf, -⟩ := exists_flow network_flowNetwork hc
  rw [hp.length_eq, ho.length] at hf
  exact h graph hfr hf

end EmuFlow.BankChannels
