import EmuFlow.PinSolver.Solver
import EmuFlow.Lib.Keyed
import Mathlib.Data.List.Perm.Basic

/-!
# The package-pin solver binds at the least cost

Every arc of the network carries nothing or one unit. What flows into a node and not out of it is
then a matter of counting its name among the ends of the full arcs, so that the flows that send one
unit for every demand are the complete assignments.
-/

namespace EmuFlow.PinSolver

open Check ResidualGraph List Arc CompatibleEdge Function SortedSet

structure CompleteAssignment (input : Input) (assignment : List CompatibleEdge) : Prop where
  legal : ∀ edge ∈ assignment, edge ∈ input.edges
  demands : (assignment.map CompatibleEdge.demand).Perm
    ((List.range input.demands.length).map fun demand : ℕ => (demand : ℤ))
  channels : (assignment.map CompatibleEdge.channel).Nodup

structure Input.Accepted (input : Input) : Prop where
  range : ∀ edge ∈ input.edges, 0 ≤ edge.demand ∧ edge.demand < input.demands.length ∧
    0 ≤ edge.channel ∧ edge.channel < input.channels.length ∧ 0 ≤ edge.cost
  pairs : (input.edges.map fun edge => (edge.demand, edge.channel)).Nodup

variable {input : Input} {graph : List (Arc ℤ)}

/-! ## unit arcs -/

def Unit (graph : List (Arc ℤ)) : Prop :=
  ∀ arc ∈ graph, arc.capacity + arc.reverse = 1 ∧ 0 ≤ arc.capacity ∧ 0 ≤ arc.reverse

def full (graph : List (Arc ℤ)) : List (Arc ℤ) := graph.filter fun arc => arc.capacity = 0

theorem full_append (graph other : List (Arc ℤ)) : full (graph ++ other) = full graph ++ full
    other :=
  filter_append _ _

theorem full_cons (arc : Arc ℤ) (graph : List (Arc ℤ)) :
    full (arc :: graph) = if arc.capacity = 0 then arc :: full graph else full graph := by
  simp [full, filter_cons]

theorem reverse_eq (h : Unit graph) {arc : Arc ℤ} (ha : arc ∈ graph) :
    arc.reverse = if arc.capacity = 0 then 1 else 0 := by
  obtain ⟨ht, hc, hr⟩ := h arc ha
  split_ifs with hf
  · omega
  · omega

theorem excess_eq_count (node : ℤ) : ∀ {graph : List (Arc ℤ)}, Unit graph →
    excess graph node = ((full graph).map Arc.target).count node -
      (((full graph).map Arc.source).count node : ℤ)
  | [], _ => by simp [excess, full]
  | arc :: graph, h => by
    have hr : Unit graph := fun arc ha => h arc (mem_cons_of_mem _ ha)
    have ih := excess_eq_count node hr
    have hrv := reverse_eq h mem_cons_self
    simp only [excess, map_cons, sum_cons] at ih ⊢
    rw [ih, hrv]
    by_cases hf : arc.capacity = 0
    · simp only [full, filter_cons, hf, decide_true, if_true, map_cons, count_cons, beq_iff_eq]
      split_ifs <;> push_cast <;> ring
    · simp only [full, filter_cons, hf, decide_false, if_false, Bool.false_eq_true]
      simp

theorem cost_eq_sum : ∀ {graph : List (Arc ℤ)}, Unit graph →
    ResidualGraph.cost graph = ((full graph).map Arc.cost).sum
  | [], _ => by simp [ResidualGraph.cost, full]
  | arc :: graph, h => by
    have hr : Unit graph := fun arc ha => h arc (mem_cons_of_mem _ ha)
    have ih := cost_eq_sum hr
    have hrv := reverse_eq h mem_cons_self
    simp only [ResidualGraph.cost, map_cons, sum_cons] at ih ⊢
    rw [ih, hrv]
    by_cases hf : arc.capacity = 0
    · simp [full, hf]
    · simp [full, hf]

/-! ## the three parts of the network -/

structure Parts (input : Input) (first middle last : List (Arc ℤ)) : Prop where
  first : first.map Arc.frame = (demandArcs input).map Arc.frame
  middle : middle.map Arc.frame = (edgeArcs input).map Arc.frame
  last : last.map Arc.frame = (channelArcs input).map Arc.frame

theorem exists_parts (h : graph.map Arc.frame = (network input).map Arc.frame) :
    ∃ first middle last, graph = first ++ middle ++ last ∧ Parts input first middle last := by
  rw [network, map_append, map_append] at h
  obtain ⟨front, last, rfl, hf, hl⟩ := map_eq_append_iff.mp h
  obtain ⟨first, middle, rfl, hfr, hm⟩ := map_eq_append_iff.mp hf
  exact ⟨first, middle, last, rfl, hfr, hm, hl⟩

theorem map_of_frame {β : Type} {other : List (Arc ℤ)} (F : ℤ × ℤ × ℤ × ℤ → β)
    (h : graph.map Arc.frame = other.map Arc.frame) :
    (graph.map fun arc => F arc.frame) = other.map fun arc => F arc.frame := by
  have hm := congrArg (List.map F) h
  rwa [map_map, map_map] at hm

theorem unit_of_frame (h : graph.map Arc.frame = (network input).map Arc.frame)
    (hp : ∀ arc ∈ graph, 0 ≤ arc.capacity ∧ 0 ≤ arc.reverse) : Unit graph := by
  intro arc ha
  refine ⟨?_, hp arc ha⟩
  have hm : arc.frame ∈ (network input).map frame := h ▸ mem_map_of_mem ha
  obtain ⟨arc', ha', hf⟩ := mem_map.mp hm
  have ho : arc'.capacity + arc'.reverse = 1 := by
    simp only [network, demandArcs, edgeArcs, channelArcs, List.mem_append, mem_map] at ha'
    rcases ha' with (⟨_, _, rfl⟩ | ⟨_, _, rfl⟩) | ⟨_, _, rfl⟩ <;> rfl
  have ht : arc'.capacity + arc'.reverse = arc.capacity + arc.reverse :=
    congrArg (fun f : ℤ × ℤ × ℤ × ℤ => f.2.2.2) hf
  omega

def edgeOf (input : Input) (arc : Arc ℤ) : CompatibleEdge where
  demand := arc.source - 1
  channel := arc.target - firstChannel input
  cost := arc.cost

section parts

variable {first middle last : List (Arc ℤ)}

theorem Parts.first_ends (h : Parts input first middle last) :
    (∀ arc ∈ first, arc.source = 0 ∧ arc.cost = 0) ∧ first.map Arc.target =
        (List.range input.demands.length).map fun d : ℕ => 1 + (d : ℤ) := by
  constructor
  · intro arc ha
    have hmm : arc.frame ∈ (demandArcs input).map frame := h.first ▸ mem_map_of_mem ha
    obtain ⟨arc', ha', hf⟩ := mem_map.mp hmm
    obtain ⟨d, -, rfl⟩ := mem_map.mp ha'
    simp only [frame, unitArc, Prod.mk.injEq] at hf
    exact ⟨hf.1.symm, hf.2.2.1.symm⟩
  · have hm := map_of_frame (fun f => f.2.1) h.first
    rw [demandArcs, map_map] at hm
    exact hm

theorem Parts.last_ends (h : Parts input first middle last) :
    (∀ arc ∈ last, arc.target = sinkOf input ∧ arc.cost = 0) ∧ last.map Arc.source =
        (List.range input.channels.length).map fun ch : ℕ =>
          firstChannel input + (ch : ℤ) := by
  constructor
  · intro arc ha
    have hmm : arc.frame ∈ (channelArcs input).map frame := h.last ▸ mem_map_of_mem ha
    obtain ⟨arc', ha', hf⟩ := mem_map.mp hmm
    obtain ⟨ch, -, rfl⟩ := mem_map.mp ha'
    simp only [frame, unitArc, Prod.mk.injEq] at hf
    exact ⟨hf.2.1.symm, hf.2.2.1.symm⟩
  · have hm := map_of_frame (fun f => f.1) h.last
    rw [channelArcs, map_map] at hm
    exact hm

theorem Parts.middle_edges (h : Parts input first middle last) :
    middle.map (edgeOf input) = input.edges := by
  have hm := map_of_frame (fun f => (⟨f.1 - 1, f.2.1 - firstChannel input, f.2.2.1⟩ :
    CompatibleEdge)) h.middle
  rw [edgeArcs, map_map] at hm
  refine hm.trans ((map_congr_left fun edge _ => ?_).trans (map_id _))
  simp [frame, unitArc]

def chosen (input : Input) (middle : List (Arc ℤ)) : List CompatibleEdge :=
  (full middle).map (edgeOf input)

theorem Parts.mem_chosen (h : Parts input first middle last) {edge : CompatibleEdge}
    (he : edge ∈ chosen input middle) : edge ∈ input.edges := by
  obtain ⟨arc, ha, rfl⟩ := mem_map.mp he
  exact h.middle_edges ▸ mem_map_of_mem (mem_filter.mp ha).1

theorem chosen_ends (input : Input) (middle : List (Arc ℤ)) :
    (full middle).map Arc.source = (chosen input middle).map (fun edge => 1 + edge.demand) ∧
      (full middle).map Arc.target =
        (chosen input middle).map fun edge => firstChannel input + edge.channel := by
  constructor
  · rw [chosen, map_map]
    exact map_congr_left fun arc _ => by simp [edgeOf]
  · rw [chosen, map_map]
    exact map_congr_left fun arc _ => by simp [edgeOf]

theorem Parts.cost_eq (h : Parts input first middle last) (hu : Unit (first ++ middle ++ last)) :
    ResidualGraph.cost (first ++ middle ++ last) =
      ((chosen input middle).map CompatibleEdge.cost).sum := by
  have hz : ∀ {part : List (Arc ℤ)}, (∀ arc ∈ part, arc.cost = 0) →
      ((full part).map Arc.cost).sum = 0 := fun hp =>
    sum_eq_zero fun c hc => by
      obtain ⟨arc, ha, rfl⟩ := mem_map.mp hc
      exact hp arc (mem_filter.mp ha).1
  rw [cost_eq_sum hu, full_append, full_append, map_append, map_append,
    sum_append, sum_append, hz fun arc ha => (h.first_ends.1 arc ha).2,
    hz fun arc ha => (h.last_ends.1 arc ha).2, zero_add, add_zero, chosen, map_map]
  rfl

theorem excess_parts (input : Input) (hu : Unit (first ++ middle ++ last)) (node : ℤ) :
    excess (first ++ middle ++ last) node = ((((full first).map Arc.target).count node : ℤ) +
        ((chosen input middle).map fun edge => firstChannel input + edge.channel).count node +
        ((full last).map Arc.target).count node) - ((((full first).map Arc.source).count node : ℤ) +
        ((chosen input middle).map fun edge => 1 + edge.demand).count node +
        ((full last).map Arc.source).count node) := by
  obtain ⟨hs, ht⟩ := chosen_ends input middle
  rw [excess_eq_count node hu, full_append, full_append]
  simp only [map_append, count_append, hs, ht]
  push_cast
  ring

theorem mem_map_full {part : List (Arc ℤ)} {F : Arc ℤ → ℤ} {x : ℤ}
    (h : x ∈ (full part).map F) : x ∈ part.map F := by
  obtain ⟨arc, ha, rfl⟩ := mem_map.mp h
  exact mem_map_of_mem (mem_filter.mp ha).1

section

variable (h : Parts input first middle last) {x : ℤ}
include h

theorem Parts.first_target
    (hx : x ∈ (full first).map Arc.target) : 1 ≤ x ∧ x < firstChannel input := by
  have hm := mem_map_full hx
  rw [h.first_ends.2] at hm
  obtain ⟨d, hd, rfl⟩ := mem_map.mp hm
  rw [mem_range] at hd
  unfold firstChannel
  omega

theorem Parts.last_source
    (hx : x ∈ (full last).map Arc.source) : firstChannel input ≤ x ∧ x < sinkOf input := by
  have hm := mem_map_full hx
  rw [h.last_ends.2] at hm
  obtain ⟨ch, hc, rfl⟩ := mem_map.mp hm
  rw [mem_range] at hc
  unfold sinkOf
  omega

theorem Parts.first_source (hx : x ∈ (full first).map Arc.source) : x = 0 := by
  obtain ⟨arc, ha, rfl⟩ := mem_map.mp hx
  exact (h.first_ends.1 arc (mem_filter.mp ha).1).1

theorem Parts.last_target (hx : x ∈ (full last).map Arc.target) : x = sinkOf input := by
  obtain ⟨arc, ha, rfl⟩ := mem_map.mp hx
  exact (h.last_ends.1 arc (mem_filter.mp ha).1).1

end

theorem Parts.chosen_source (ha : input.Accepted) (h : Parts input first middle last) {x : ℤ}
    (hx : x ∈ (chosen input middle).map fun edge => 1 + edge.demand) :
    1 ≤ x ∧ x < firstChannel input := by
  obtain ⟨edge, he, rfl⟩ := mem_map.mp hx
  obtain ⟨hl, hh, -⟩ := ha.range edge (h.mem_chosen he)
  unfold firstChannel
  omega

theorem Parts.chosen_target (ha : input.Accepted) (h : Parts input first middle last) {x : ℤ}
    (hx : x ∈ (chosen input middle).map fun edge => firstChannel input + edge.channel) :
    firstChannel input ≤ x ∧ x < sinkOf input := by
  obtain ⟨edge, he, rfl⟩ := mem_map.mp hx
  obtain ⟨-, -, hl, hh, -⟩ := ha.range edge (h.mem_chosen he)
  unfold sinkOf
  omega

theorem firstChannel_pos (input : Input) : 1 ≤ firstChannel input := by
  unfold firstChannel
  omega

theorem firstChannel_le_sinkOf (input : Input) : firstChannel input ≤ sinkOf input := by
  unfold sinkOf
  omega

theorem count_map_add (c x : ℤ) (F : CompatibleEdge → ℤ) (l : List CompatibleEdge) :
    (l.map fun edge => c + F edge).count (c + x) = (l.map F).count x := by
  rw [show (l.map fun edge => c + F edge) = (l.map F).map (c + ·) by rw [map_map]; rfl]
  exact count_map_of_injective _ _ (add_right_injective c) x

theorem complete_of_flow (ha : input.Accepted) (h : Parts input first middle last)
    (hun : Unit (first ++ middle ++ last))
    (hfl : Flow (first ++ middle ++ last) 0 (sinkOf input) input.demands.length) :
    CompleteAssignment input (chosen input middle) := by
  have hfc := firstChannel_pos input
  have hsn := firstChannel_le_sinkOf input
  have hzr : ∀ {l : List ℤ} {x : ℤ}, x ∉ l → l.count x = 0 := count_eq_zero_of_not_mem
  -- all arcs of the source are full
  have hfr : full first = first := by
    have hex := excess_parts input hun 0
    have htr : ((full first).map target).count 0 = 0 :=
      hzr fun hx => by have := h.first_target hx; omega
    have hin : ((chosen input middle).map fun edge => firstChannel input + edge.channel).count 0 =
        0 := hzr fun hx => by have := h.chosen_target ha hx; omega
    have hen : ((full last).map target).count 0 = 0 :=
      hzr fun hx => by have := h.last_target hx; omega
    have hot : ((chosen input middle).map fun edge => 1 + edge.demand).count 0 = 0 :=
      hzr fun hx => by have := h.chosen_source ha hx; omega
    have hls : ((full last).map source).count 0 = 0 :=
      hzr fun hx => by have := h.last_source hx; omega
    have hal : ((full first).map source).count 0 = ((full first).map source).length :=
      count_eq_length.mpr fun x hx => (h.first_source hx).symm
    rw [hfl.excess, if_neg (by omega), if_pos rfl, htr, hin, hen, hot, hls,
      hal] at hex
    have hln : first.length = input.demands.length := by
      have hmp := congrArg List.length h.first_ends.2
      simpa using hmp
    refine length_filter_eq_length_iff.mp ?_ |> filter_eq_self.mpr
    show (full first).length = first.length
    simp only [length_map] at hex
    omega
  have hdm : ∀ d : ℕ, d < input.demands.length →
      ((chosen input middle).map demand).count (d : ℤ) = 1 := by
    intro d hlt
    have hlw : 1 + (d : ℤ) < firstChannel input := by
      unfold firstChannel
      omega
    have hex := excess_parts input hun (1 + d)
    have hon : ((full first).map target).count (1 + (d : ℤ)) = 1 := by
      rw [hfr, h.first_ends.2]
      refine count_eq_one_of_mem ?_ (mem_map.mpr ⟨d, mem_range.mpr hlt, rfl⟩)
      refine Nodup.map (fun a b hab => ?_) nodup_range
      exact Int.ofNat.inj (add_left_cancel hab)
    have hin : ((chosen input middle).map fun edge => firstChannel input + edge.channel).count
        (1 + (d : ℤ)) = 0 := hzr fun hx => by have := h.chosen_target ha hx; omega
    have hen : ((full last).map target).count (1 + (d : ℤ)) = 0 :=
      hzr fun hx => by have := h.last_target hx; omega
    have hst : ((full first).map source).count (1 + (d : ℤ)) = 0 :=
      hzr fun hx => by have := h.first_source hx; omega
    have hls : ((full last).map source).count (1 + (d : ℤ)) = 0 :=
      hzr fun hx => by have := h.last_source hx; omega
    rw [hfl.excess, if_neg (by omega), if_neg (by omega), hon, hin, hen, hst, hls,
      count_map_add] at hex
    omega
  have hch : ∀ ch : ℕ, ch < input.channels.length →
      ((chosen input middle).map channel).count (ch : ℤ) ≤ 1 := by
    intro ch hlt
    have hhg : firstChannel input + (ch : ℤ) < sinkOf input := by
      unfold sinkOf
      omega
    have hex := excess_parts input hun (firstChannel input + ch)
    have hon : ((full last).map source).count (firstChannel input + (ch : ℤ)) ≤ 1 := by
      have hsb : ((full last).map source).Sublist (last.map source) := filter_sublist.map _
      refine (hsb.count_le _).trans ?_
      rw [h.last_ends.2]
      refine nodup_iff_count_le_one.mp (Nodup.map (fun a b hab => ?_) nodup_range) _
      exact Int.ofNat.inj (add_left_cancel hab)
    have htr : ((full first).map target).count (firstChannel input + (ch : ℤ)) = 0 :=
      hzr fun hx => by have := h.first_target hx; omega
    have hen : ((full last).map target).count (firstChannel input + (ch : ℤ)) = 0 :=
      hzr fun hx => by have := h.last_target hx; omega
    have hst : ((full first).map source).count (firstChannel input + (ch : ℤ)) = 0 :=
      hzr fun hx => by have := h.first_source hx; omega
    have hot : ((chosen input middle).map fun edge => 1 + edge.demand).count
        (firstChannel input + (ch : ℤ)) = 0 :=
      hzr fun hx => by have := h.chosen_source ha hx; omega
    rw [hfl.excess, if_neg (by omega), if_neg (by omega), htr, hen, hst, hot,
      count_map_add] at hex
    omega
  refine ⟨fun edge hed => h.mem_chosen hed, perm_iff_count.mpr fun x => ?_,
    nodup_iff_count_le_one.mpr fun x => ?_⟩
  · by_cases hx : ∃ d : ℕ, d < input.demands.length ∧ (d : ℤ) = x
    · obtain ⟨d, hlt, rfl⟩ := hx
      rw [hdm d hlt]
      refine (count_eq_one_of_mem ?_ (mem_map.mpr ⟨d, mem_range.mpr hlt, rfl⟩)).symm
      exact Nodup.map (fun a b hab => Int.ofNat.inj hab) nodup_range
    · rw [hzr fun hmm => ?_, hzr fun hmm => ?_]
      · obtain ⟨d, hlt, rfl⟩ := mem_map.mp hmm
        exact hx ⟨d, mem_range.mp hlt, rfl⟩
      · obtain ⟨edge, hed, rfl⟩ := mem_map.mp hmm
        obtain ⟨hlw, hhg, -⟩ := ha.range edge (h.mem_chosen hed)
        exact hx ⟨edge.demand.toNat, by omega, by omega⟩
  · by_cases hx : ∃ ch : ℕ, ch < input.channels.length ∧ (ch : ℤ) = x
    · obtain ⟨ch, hlt, rfl⟩ := hx
      exact hch ch hlt
    · rw [hzr fun hmm => ?_]
      · exact Nat.zero_le _
      · obtain ⟨edge, hed, rfl⟩ := mem_map.mp hmm
        obtain ⟨-, -, hlw, hhg, -⟩ := ha.range edge (h.mem_chosen hed)
        exact hx ⟨edge.channel.toNat, by omega, by omega⟩

end parts

/-! ## the flow of an assignment -/

def fill (used : Bool) (arc : Arc ℤ) : Arc ℤ := if used then arc.push true else arc

theorem frame_fill (used : Bool) (arc : Arc ℤ) : (fill used arc).frame = arc.frame := by
  cases used
  · rfl
  · exact frame_push arc true

def filled (input : Input) (assignment : List CompatibleEdge) : List (Arc ℤ) :=
  (demandArcs input).map (fill true) ++ input.edges.map (fun edge => fill (edge ∈ assignment)
      (unitArc (1 + edge.demand) (firstChannel input + edge.channel) edge.cost)) ++
    (List.range input.channels.length).map fun (channel : ℕ) =>
      fill ((channel : ℤ) ∈ assignment.map CompatibleEdge.channel)
        (unitArc (firstChannel input + channel) (sinkOf input) 0)

theorem full_map_fill {α : Type} (used : α → Bool) (F : α → Arc ℤ)
    (hF : ∀ a, (F a).capacity = 1) : ∀ l : List α,
    full (l.map fun a => fill (used a) (F a)) = (l.filter used).map fun a => (F a).push true
  | [] => rfl
  | a :: l => by
    have ih := full_map_fill used F hF l
    rw [full] at ih ⊢
    by_cases hu : used a = true
    · have hz : ((F a).push true).capacity = 0 := by
        show (F a).capacity - 1 = 0
        rw [hF, sub_self]
      rw [map_cons, hu, fill, if_pos rfl, filter_cons, if_pos (by simpa using hz),
        ih, filter_cons, if_pos hu, map_cons]
    · have ho : ¬ (F a).capacity = 0 := by
        rw [hF]
        exact one_ne_zero
      rw [map_cons, fill, if_neg hu, filter_cons, if_neg (by simpa using ho), ih,
        filter_cons, if_neg hu]

theorem filled_parts (input : Input) (assignment : List CompatibleEdge) :
    (filled input assignment).map Arc.frame = (network input).map Arc.frame := by
  simp only [filled, network, demandArcs, edgeArcs, channelArcs, map_append, map_map,
    comp_def, frame_fill]

theorem unit_filled (input : Input) (assignment : List CompatibleEdge) :
    Unit (filled input assignment) := by
  have hu : ∀ used source target cost, (fill used (unitArc source target cost)).capacity +
      (fill used (unitArc source target cost)).reverse = 1 ∧
      0 ≤ (fill used (unitArc source target cost)).capacity ∧
      0 ≤ (fill used (unitArc source target cost)).reverse := by
    intro used source target cost
    cases used <;> simp [fill, unitArc, Arc.push]
  intro arc ha
  simp only [filled, demandArcs, map_map, List.mem_append, mem_map, comp_apply] at ha
  rcases ha with (⟨_, _, rfl⟩ | ⟨_, _, rfl⟩) | ⟨_, _, rfl⟩ <;> exact hu _ _ _ _

theorem flow_of_complete (ha : input.Accepted) {assignment : List CompatibleEdge}
    (h : CompleteAssignment input assignment) :
    Flow (filled input assignment) 0 (sinkOf input) input.demands.length ∧
      ResidualGraph.cost (filled input assignment) = (assignment.map CompatibleEdge.cost).sum := by
  have hu := unit_filled input assignment
  -- the edges of the assignment, and its channels, as the arcs list them
  have hnd : assignment.Nodup := Nodup.of_map _ (h.demands.nodup_iff.mpr
    (Nodup.map (fun a b hab => Int.ofNat.inj hab) nodup_range))
  have heg : (input.edges.filter fun edge => edge ∈ assignment).Perm assignment := by
    refine (perm_ext_iff_of_nodup ((Nodup.of_map _ ha.pairs).filter _) hnd).mpr ?_
    intro edge
    rw [mem_filter, decide_eq_true_eq]
    exact ⟨fun he => he.2, fun he => ⟨h.legal edge he, he⟩⟩
  have hch : (((List.range input.channels.length).filter fun ch : ℕ =>
      (ch : ℤ) ∈ assignment.map CompatibleEdge.channel).map fun ch : ℕ =>
        (ch : ℤ)).Perm (assignment.map CompatibleEdge.channel) := by
    refine (perm_ext_iff_of_nodup (Nodup.map (fun a b hab => Int.ofNat.inj hab)
      (nodup_range.filter _)) h.channels).mpr fun x => ?_
    constructor
    · intro hx
      obtain ⟨ch, hc, rfl⟩ := mem_map.mp hx
      simpa using (mem_filter.mp hc).2
    · intro hx
      obtain ⟨edge, he, rfl⟩ := mem_map.mp hx
      obtain ⟨-, -, hl, hh, -⟩ := ha.range edge (h.legal edge he)
      refine mem_map.mpr ⟨edge.channel.toNat, mem_filter.mpr ⟨?_, ?_⟩, Int.toNat_of_nonneg hl⟩
      · exact mem_range.mpr (by omega)
      · have hcs : ((edge.channel.toNat : ℕ) : ℤ) = edge.channel := by omega
        rw [decide_eq_true_eq, hcs]
        exact hx
  have hf : full (filled input assignment) = ((demandArcs input).map fun arc => arc.push true) ++
      ((input.edges.filter fun edge => edge ∈ assignment).map fun edge =>
        (unitArc (1 + edge.demand) (firstChannel input + edge.channel) edge.cost).push true) ++
      ((List.range input.channels.length).filter fun ch : ℕ =>
        (ch : ℤ) ∈ assignment.map CompatibleEdge.channel).map fun (ch : ℕ) =>
          (unitArc (firstChannel input + ch) (sinkOf input) 0).push true := by
    rw [filled, full_append, full_append]
    congr 1
    · congr 1
      · have hd := full_map_fill (fun _ => true)
          (fun d : ℕ => unitArc 0 (1 + d) 0) (fun _ => rfl)
          (List.range input.demands.length)
        simpa [demandArcs, comp_def] using hd
      · exact full_map_fill (fun edge => decide (edge ∈ assignment)) _ (fun _ => rfl) _
    · exact full_map_fill (fun ch : ℕ =>
        decide ((ch : ℤ) ∈ assignment.map CompatibleEdge.channel)) _ (fun _ => rfl) _
  have hcn : ∀ {l m : List ℤ} (node : ℤ), l.Perm m → l.count node = m.count node :=
    fun node hp => hp.count_eq node
  refine ⟨⟨fun arc har => (hu arc har).2, fun node => ?_⟩, ?_⟩
  · -- what flows into the demands and channels flows out of them
    have hdm : ((List.range input.demands.length).map fun d : ℕ =>
        1 + (d : ℤ)).Perm ((input.edges.filter fun edge => edge ∈ assignment).map
          fun edge => 1 + edge.demand) := by
      have hm := (h.demands.symm.trans (heg.symm.map CompatibleEdge.demand)).map (1 + ·)
      simpa [map_map, comp_def] using hm
    have hi : ((input.edges.filter fun edge => edge ∈ assignment).map fun edge =>
        firstChannel input + edge.channel).Perm
        (((List.range input.channels.length).filter fun ch : ℕ =>
          (ch : ℤ) ∈ assignment.map CompatibleEdge.channel).map fun ch : ℕ =>
            firstChannel input + (ch : ℤ)) := by
      have hm := ((heg.map CompatibleEdge.channel).trans hch.symm).map
        (firstChannel input + ·)
      simpa [map_map, comp_def] using hm
    have hln : ((List.range input.channels.length).filter fun ch : ℕ =>
        (ch : ℤ) ∈ assignment.map CompatibleEdge.channel).length =
          input.demands.length := by
      have h₁ := hch.length_eq
      have h₂ := h.demands.length_eq
      simp only [length_map, length_range] at h₁ h₂
      omega
    rw [excess_eq_count node hu, hf]
    simp only [map_append, map_map, demandArcs, comp_def, Arc.push, unitArc,
      count_append, map_const', count_replicate, hcn node hdm,
      hcn node hi, hln, length_range, beq_iff_eq]
    push_cast
    simp only [eq_comm (b := node)]
    ring
  · rw [cost_eq_sum hu, hf]
    have hm := (heg.map CompatibleEdge.cost).sum_eq
    simp only [map_append, map_map, demandArcs, comp_def, Arc.push, unitArc,
      sum_append, map_const', sum_replicate, smul_zero, zero_add, add_zero]
    exact hm

/-! ## reading the assignment off the edges -/

def readSteps (input : Input) (demand : ℕ) (l : List (Step ℤ)) : List CompatibleEdge :=
  ((l.filter fun edge => edge.source = 1 + (demand : ℤ)).filter fun edge =>
    ¬ (edge.target < firstChannel input ∨ edge.target ≥ sinkOf input ∨ edge.capacity ≠ 0)).map
      fun edge => { demand := demand, channel := edge.target - firstChannel input, cost :=
        edge.cost }

theorem readSteps_append (demand : ℕ) (l m : List (Step ℤ)) :
    readSteps input demand (l ++ m) = readSteps input demand l ++ readSteps input demand m := by
  simp only [readSteps, filter_append, map_append]

def readArc (input : Input) (demand : ℕ) (arc : Arc ℤ) : List CompatibleEdge :=
  readSteps input demand [arc.step 0 true, arc.step 0 false]

theorem readSteps_arc (demand n : ℕ) (arc : Arc ℤ) :
    readSteps input demand [arc.step n true, arc.step n false] = readArc input demand arc := by
  simp only [readArc, readSteps, filter_cons, filter_nil, step]
  split_ifs <;> simp [filter_cons] <;> split_ifs <;> rfl

theorem assignedTo_eq (input : Input) (graph : List (Arc ℤ)) (demand : ℕ) :
    assignedTo input graph demand = graph.flatMap (readArc input demand) := by
  have hz : ∀ (l : List (Arc ℤ)) (n : ℕ), readSteps input demand ((l.zipIdx n).flatMap
      fun e => [e.1.step e.2 true, e.1.step e.2 false]) =
        l.flatMap (readArc input demand) := by
    intro l
    induction l with
    | nil => exact fun _ => rfl
    | cons arc l ih =>
      intro n
      rw [zipIdx_cons, flatMap_cons, readSteps_append, ih (n + 1), flatMap_cons, readSteps_arc]
  exact hz graph 0

section parts

variable {first middle last : List (Arc ℤ)}

theorem Parts.assignedTo_eq (ha : input.Accepted) (h : Parts input first middle last) {demand : ℕ}
    (hdm : demand < input.demands.length) : assignedTo input (first ++ middle ++ last) demand =
      (chosen input middle).filter fun edge => edge.demand = (demand : ℤ) := by
  have hfc := firstChannel_pos input
  have hsn := firstChannel_le_sinkOf input
  have hlw : 1 + (demand : ℤ) < firstChannel input := by
    unfold firstChannel
    omega
  have hfr : ∀ arc ∈ first, readArc input demand arc = [] := by
    intro arc har
    have hsr := (h.first_ends.1 arc har).1
    have hmm : arc.target ∈ first.map target := mem_map_of_mem har
    simp only [readArc, readSteps, filter_cons, filter_nil, step, hsr]
    rw [if_neg (by simp; omega)]
    split_ifs with htr
    · simp [show (0 : ℤ) < firstChannel input by omega]
    · rfl
  have hls : ∀ arc ∈ last, readArc input demand arc = [] := by
    intro arc har
    have htr := (h.last_ends.1 arc har).1
    have hmm : arc.source ∈ last.map source := mem_map_of_mem har
    rw [h.last_ends.2] at hmm
    obtain ⟨ch, -, hsr⟩ := mem_map.mp hmm
    simp only [readArc, readSteps, filter_cons, filter_nil, step, htr, ← hsr]
    rw [if_neg (by simp; omega), if_neg (by simp; omega)]
    rfl
  have hmd : ∀ l : List (Arc ℤ), (∀ arc ∈ l, edgeOf input arc ∈ input.edges) →
      l.flatMap (readArc input demand) =
        ((full l).map (edgeOf input)).filter fun edge => edge.demand = (demand : ℤ) := by
    intro l
    induction l with
    | nil => exact fun _ => rfl
    | cons arc l ih =>
      intro hl
      obtain ⟨heg, hrs⟩ := forall_mem_cons.mp hl
      obtain ⟨-, -, hch, hch', -⟩ := ha.range _ heg
      have htr : firstChannel input ≤ arc.target ∧ arc.target < sinkOf input := by
        have hhg : sinkOf input = firstChannel input + input.channels.length := rfl
        simp only [edgeOf] at hch hch'
        omega
      have hbc : ¬ arc.target = 1 + (demand : ℤ) := by
        omega
      have how : readArc input demand arc =
          if arc.capacity = 0 ∧ (edgeOf input arc).demand = (demand : ℤ) then [edgeOf input arc]
          else [] := by
        simp only [readArc, readSteps, filter_cons, filter_nil, step, edgeOf]
        by_cases hsr : arc.source = 1 + (demand : ℤ)
        · by_cases hcp : arc.capacity = 0
          · simp [hsr, hbc, hcp, htr.1, htr.2]
          · simp [hsr, hbc, hcp]
        · have hot : ¬ arc.source - 1 = (demand : ℤ) := by omega
          simp [hsr, hbc, hot]
      rw [flatMap_cons, ih hrs, how, full_cons]
      by_cases hcp : arc.capacity = 0
      · by_cases hmn : (edgeOf input arc).demand = (demand : ℤ)
        · simp [hcp, hmn]
        · simp [hcp, hmn]
      · simp [hcp]
  have hed : ∀ arc ∈ middle, edgeOf input arc ∈ input.edges := fun arc har =>
    h.middle_edges ▸ mem_map_of_mem har
  rw [PinSolver.assignedTo_eq, flatMap_append, flatMap_append, hmd middle hed,
    flatMap_eq_nil_iff.mpr hfr, flatMap_eq_nil_iff.mpr hls, nil_append,
    append_nil]
  rfl

end parts

/-! ## the solver -/

def CompatibleEdge.pair (edge : CompatibleEdge) : ℤ ×ₗ ℤ := lex edge.demand edge.channel

theorem pair_le_of_key_le {a b : CompatibleEdge} (h : a.key ≤ b.key) : a.pair ≤ b.pair := by
  rcases Prod.Lex.toLex_le_toLex.mp h with hlt | ⟨heq, hle⟩
  · exact Prod.Lex.toLex_le_toLex.mpr (.inl hlt)
  · exact Prod.Lex.toLex_le_toLex.mpr (.inr ⟨heq, Prod.Lex.monotone_fst _ _ hle⟩)

theorem pairwise_pair_lt : ∀ {edges : List CompatibleEdge},
    (edges.Pairwise fun a b => a.pair ≤ b.pair) → duplicateEdge edges = false →
    edges.Pairwise fun a b => a.pair < b.pair
  | [], _, _ => .nil
  | [_], _, _ => pairwise_singleton _ _
  | a :: b :: edges, h, hdp => by
    obtain ⟨hf, hr⟩ := pairwise_cons.mp h
    have hs : duplicateEdge (a :: b :: edges) =
        ((decide (a.demand = b.demand) && decide (a.channel = b.channel)) ||
          duplicateEdge (b :: edges)) := rfl
    rw [hs, Bool.or_eq_false_iff] at hdp
    have ih := pairwise_pair_lt hr hdp.2
    have hlt : a.pair < b.pair := by
      refine lt_of_le_of_ne (hf b mem_cons_self) fun heq => ?_
      obtain ⟨hd, hch⟩ := Prod.mk.inj (show (a.demand, a.channel) =
        (b.demand, b.channel) from heq)
      simp [hd, hch] at hdp
    refine pairwise_cons.mpr ⟨fun c hc => ?_, ih⟩
    rcases mem_cons.mp hc with rfl | hc
    · exact hlt
    · exact hlt.trans ((pairwise_cons.mp ih).1 c hc)

theorem accepted_of_readInput {records : List Record} (h : readInput records = .ok input) :
    input.Accepted := by
  obtain ⟨raw, -, h⟩ := bind_eq_ok.mp h
  obtain ⟨-, h⟩ := raiseIf_bind.mp h
  obtain ⟨_, -, h⟩ := bind_eq_ok.mp h
  obtain ⟨_, -, h⟩ := bind_eq_ok.mp h
  obtain ⟨_, hv, h⟩ := bind_eq_ok.mp h
  obtain ⟨hd, h⟩ := raiseIf_bind.mp h
  cases h
  have hs := pairwise_sortedBy CompatibleEdge.key raw.edges
  constructor
  · intro edge he
    have hc := raiseIf_eq_ok.mp (forM_eq_ok.mp hv edge (mem_sortedBy.mp he))
    simp only [invalidEdge, not_or, not_lt, ge_iff_le, not_le] at hc
    exact ⟨hc.1, hc.2.1, hc.2.2.1, hc.2.2.2.1, hc.2.2.2.2.1⟩
  · have hlt := pairwise_pair_lt (hs.imp pair_le_of_key_le) (by simpa using hd)
    refine pairwise_map.mpr (hlt.imp fun {a b} ha heq => ?_)
    obtain ⟨hdm, hch⟩ := Prod.mk.inj heq
    exact absurd ha (by rw [CompatibleEdge.pair, CompatibleEdge.pair, hdm, hch]; simp)

theorem sum_network (input : Input) :
    ((network input).map Arc.cost).sum = (input.edges.map CompatibleEdge.cost).sum := by
  simp only [network, demandArcs, edgeArcs, channelArcs, map_append, map_map,
    sum_append, comp_def, unitArc, map_const', sum_replicate, smul_zero,
    zero_add, add_zero]

theorem fresh_network (ha : input.Accepted) :
    ∀ arc ∈ network input, 0 ≤ arc.capacity ∧ arc.reverse = 0 ∧ 0 ≤ arc.cost := by
  intro arc har
  simp only [network, demandArcs, edgeArcs, channelArcs, List.mem_append, mem_map] at har
  rcases har with (⟨_, _, rfl⟩ | ⟨edge, he, rfl⟩) | ⟨_, _, rfl⟩
  · exact ⟨zero_le_one, rfl, le_refl _⟩
  · exact ⟨zero_le_one, rfl, (ha.range edge he).2.2.2.2⟩
  · exact ⟨zero_le_one, rfl, le_refl _⟩

/-- The result of the solver: a complete assignment of the least cost, with its cost, or the error
that there is none. -/
inductive Solves (input : Input) : Except String Output → Prop
  | assigned {output : Output} : CompleteAssignment input output.assignment →
    output.assigned = input.demands.length →
    output.totalCost = (output.assignment.map CompatibleEdge.cost).sum →
    (∀ other, CompleteAssignment input other →
      output.totalCost ≤ (other.map CompatibleEdge.cost).sum) → Solves input (.ok output)
  | none : (∀ other, ¬ CompleteAssignment input other) →
    Solves input (.error "no complete electrically legal package-pin assignment exists")

theorem solves_of_optimal (ha : input.Accepted) {solved : Solved ℤ}
    (h : Optimal (network input) 0 (sinkOf input) input.demands.length solved) :
    Solves input (finish input solved) := by
  by_cases hvl : solved.flow = input.demands.length
  · obtain ⟨first, middle, last, hgr, hpr⟩ := exists_parts h.frame
    have hun := unit_of_frame h.frame h.flow.nonneg
    have hfl := h.flow
    have htt := h.total
    rw [hgr] at hun hfl htt
    rw [hvl] at hfl
    have hcm := complete_of_flow ha hpr hun hfl
    have hrd : ((List.range input.demands.length).flatMap (assignedTo input solved.graph)).Perm
        (chosen input middle) := by
      have hky : ((List.range input.demands.length).map fun d : ℕ => (d : ℤ)).Nodup :=
        Nodup.map (fun a b hab => Int.ofNat.inj hab) nodup_range
      have hpm := @Keyed.flatMap_filter_perm _ _ _ CompatibleEdge.demand _ _ hky
        fun edge hed => hcm.demands.mem_iff.mp (mem_map_of_mem hed)
      rw [flatMap_map] at hpm
      rw [hgr, flatMap_congr fun d hdn =>
        hpr.assignedTo_eq ha (mem_range.mp hdn)]
      exact hpm
    have hln : ((List.range input.demands.length).flatMap
        (assignedTo input solved.graph)).length = input.demands.length := by
      have hdm := hcm.demands.length_eq
      simp only [length_map, length_range] at hdm
      rw [hrd.length_eq, hdm]
    have hsr := (sortedBy_perm CompatibleEdge.key
      ((List.range input.demands.length).flatMap (assignedTo input solved.graph))).trans hrd
    have hrn : finish input solved = .ok
        { assigned := solved.flow, totalCost := solved.totalCost,
          assignment := sortedBy CompatibleEdge.key
            ((List.range input.demands.length).flatMap (assignedTo input solved.graph)) } := by
      refine raiseIf_bind.mpr ⟨not_not.mpr hvl, ?_⟩
      exact raiseIf_bind.mpr ⟨not_not.mpr hln, rfl⟩
    rw [hrn]
    refine .assigned ⟨fun edge hed => hcm.legal edge (hsr.mem_iff.mp hed),
      (hsr.map _).trans hcm.demands, ((hsr.map _).nodup_iff).mpr hcm.channels⟩
      hvl ?_ fun other hot => ?_
    · show solved.totalCost = _
      rw [(hsr.map CompatibleEdge.cost).sum_eq, ← hpr.cost_eq hun, htt]
    · obtain ⟨hfl', hcs⟩ := flow_of_complete ha hot
      rw [← hcs]
      exact h.least _ (filled_parts input other) (hvl ▸ hfl')
  · have hrn : finish input solved =
        .error "no complete electrically legal package-pin assignment exists" := by
      simp only [finish, raiseIf, if_pos hvl]
      rfl
    rw [hrn]
    refine .none fun other hot => hvl ?_
    rcases h.largest with heq | hlr
    · exact heq
    · have hle := hlr _ _ (filled_parts input other) (flow_of_complete ha hot).1
      exact le_antisymm h.bounded hle

/-- **The solver returns, and what it returns solves its input**: all searches and walks end within
some fuel, neither a broken path nor an incomplete reconstruction is reported, and no residual graph
on the way has a cycle of negative cost. -/
theorem run_optimal {records : List Record} (hread : readInput records = .ok input)
    (hsum : (input.edges.map CompatibleEdge.cost).sum < infinity) :
    (∃ bound result, (∀ fuel ≥ bound, run fuel records = some result) ∧ Solves input result) ∧
      ∀ fuel graph, Sent fuel infinity 0 (sinkOf input) (network input) graph →
        ∀ node total, Walk graph node node total → 0 ≤ total := by
  have ha := accepted_of_readInput hread
  have hnetwork : ((network input).map Arc.cost).sum < infinity := by rwa [sum_network]
  constructor
  · obtain ⟨bound, solved, hrun, hoptimal⟩ := @solve_spec _ _ (network input) 0 (sinkOf input)
      infinity (fresh_network ha) hnetwork input.demands.length
    refine ⟨bound, finish input solved, fun fuel hfuel => ?_, solves_of_optimal ha hoptimal⟩
    simp only [run, hread, hrun fuel hfuel]
  · exact fun fuel graph hsent node total hcycle =>
      cycle_nonneg (fresh_network ha) hnetwork hsent hcycle

/-- Two demands over three edges: only the dearer way serves both. -/
def crossedRecords : List Record :=
  [.demand 0 7, .demand 1 7, .channel 0 7, .channel 1 7, .edge ⟨0, 0, 1⟩, .edge ⟨0, 1, 5⟩,
    .edge ⟨1, 0, 2⟩]

example : run 20 crossedRecords = some (.ok ⟨2, 7, [⟨0, 1, 5⟩, ⟨1, 0, 2⟩]⟩) := by decide +kernel

theorem run_crossedRecords : ∃ input, readInput crossedRecords = .ok input ∧ ((∃ bound result,
      (∀ fuel ≥ bound, run fuel crossedRecords = some result) ∧ Solves input result) ∧
      ∀ fuel graph, Sent fuel infinity 0 (sinkOf input) (network input) graph →
        ∀ node total, Walk graph node node total → 0 ≤ total) :=
  ⟨⟨[⟨7⟩, ⟨7⟩], [⟨7⟩, ⟨7⟩], [⟨0, 0, 1⟩, ⟨0, 1, 5⟩, ⟨1, 0, 2⟩]⟩, rfl, run_optimal rfl (by decide)⟩

/-- One edge at the distance that stands for an unreached node. -/
def farRecords : List Record :=
  [.demand 0 0, .channel 0 0, .edge ⟨0, 0, 2305843009213693951⟩]

theorem run_farRecords : (∃ input, readInput farRecords = .ok input ∧
      (input.edges.map CompatibleEdge.cost).sum < 2 ^ 61 ∧
      CompleteAssignment input [⟨0, 0, 2305843009213693951⟩]) ∧ run 20 farRecords =
      some (.error "no complete electrically legal package-pin assignment exists") :=
  ⟨⟨⟨[⟨0⟩], [⟨0⟩], [⟨0, 0, 2305843009213693951⟩]⟩, rfl, by decide,
    by decide, by decide, by decide⟩, by decide +kernel⟩

end EmuFlow.PinSolver
