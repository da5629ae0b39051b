import EmuFlow.BankChannels.Certified

/-!
# The flow of `assign`

The minimum-cost flow on the network of the candidates fills all lefts when that is possible; its
saturated edges are then one for each left, and its residual graph has potentials.
-/

namespace EmuFlow.BankChannels

open Check ResidualGraph SortedSet Transport List

variable {capacities : List ℤ} {leftCount : ℕ} {candidates : List CandidateEdge}
  {network graph : List (Arc Vertex)}

/-- What a path has when its flow has ended. -/
structure Solving (network : List (Arc Vertex)) (leftCount bound : ℕ) (solved : Solved Vertex) :
    Prop where
  run : ∀ fuel ≥ bound, solveFlow fuel leftCount network = some (.ok solved)
  frame : solved.graph.map Arc.frame = network.map Arc.frame
  flow : Flow solved.graph .source .sink solved.flow
  total : ResidualGraph.cost solved.graph = solved.totalCost
  priced : ∃ price, Potential solved.graph price

theorem solveFlow_spec (hf : ∀ arc ∈ network, 0 ≤ arc.capacity ∧ arc.reverse = 0 ∧ 0 ≤ arc.cost)
    (hs : (network.map Arc.cost).sum < infinity) (leftCount : ℕ) :
    ∃ bound solved, (∀ fuel ≥ bound, solveFlow fuel leftCount network = some (.ok solved)) ∧
      Optimal network .source .sink leftCount solved := by
  obtain ⟨bound, solved, hr, ho⟩ :=
    @solve_spec _ _ network .source .sink infinity hf hs leftCount
  exact ⟨bound, solved, fun fuel hfl => by rw [solveFlow, hr fuel hfl], ho⟩

theorem solveFlow_extendable (hn : Network network)
    (hf : ∀ arc ∈ network, 0 ≤ arc.capacity ∧ arc.reverse = 0 ∧ 0 ≤ arc.cost) (leftCount : ℕ) :
    ∃ bound solved, Solving network leftCount bound solved ∧
      (solved.flow = leftCount ↔ Extendable network infinity leftCount) := by
  obtain ⟨bound, solved, hr, hb, hi⟩ :=
    @solve_affordable _ _ network .source .sink infinity hf (by decide) leftCount
  obtain ⟨price, hp⟩ := hb.priced
  exact ⟨bound, solved, ⟨fun fuel hfl => by rw [solveFlow, hr fuel hfl], hb.frame,
    hb.flow, hb.total, price, hp.potential⟩, hi.trans (affordable_iff hn)⟩

theorem within_of_same {nodes : List Vertex}
    (hn : ∀ arc ∈ network, arc.source ∈ nodes ∧ arc.target ∈ nodes)
    (hsm : graph.map Arc.frame = network.map Arc.frame) : Within graph nodes := by
  intro e he
  obtain ⟨arc, ha, hst⟩ := mem_steps.mp he
  obtain ⟨arc', ha', hf⟩ := exists_of_frame hsm (mem_of_getElem? ha)
  obtain ⟨hs, ht⟩ := hn arc' ha'
  simp only [Arc.frame, Prod.mk.injEq] at hf
  rw [hf.1] at hs
  rw [hf.2.1] at ht
  rw [hst]
  cases e.forward
  · exact ⟨ht, hs⟩
  · exact ⟨hs, ht⟩

theorem stuck_of_optimal {solved : Solved Vertex} {value : ℤ}
    (h : Optimal network .source .sink value solved) (hne : solved.flow ≠ value) :
    ∀ other, other.map Arc.frame = network.map Arc.frame → ¬ Flow other .source .sink value := by
  intro other hs hf
  rcases h.largest with heq | hl
  · exact hne heq
  · exact hne (le_antisymm h.bounded (hl other value hs hf))

theorem nodes_flowNetwork (ha : Ranged capacities leftCount candidates) :
    ∀ arc ∈ flowNetwork capacities leftCount candidates,
      arc.source ∈ flowNodes capacities.length leftCount ∧
        arc.target ∈ flowNodes capacities.length leftCount := by
  have hrg : ∀ {right}, right < capacities.length →
      Vertex.right right ∈ flowNodes capacities.length leftCount := fun h => by
    simp [flowNodes, h]
  have hlf : ∀ {left}, left < leftCount →
      Vertex.left left ∈ flowNodes capacities.length leftCount := fun h => by
    simp [flowNodes, h]
  have hs : Vertex.source ∈ flowNodes capacities.length leftCount := by simp [flowNodes]
  have hsn : Vertex.sink ∈ flowNodes capacities.length leftCount := by simp [flowNodes]
  intro arc har
  simp only [flowNetwork, List.mem_append, mem_map] at har
  rcases har with (⟨entry, he, rfl⟩ | ⟨candidate, hc, rfl⟩) | ⟨left, hm, rfl⟩
  · have hlt := snd_lt_of_mem_zipIdx he
    exact ⟨hs, hrg (by omega)⟩
  · obtain ⟨hr, hl, -⟩ := ha.range candidate hc
    exact ⟨hrg hr, hlf hl⟩
  · exact ⟨hlf (mem_range.mp hm), hsn⟩

theorem lefts_flatMap_filter {edges : List CandidateEdge}
    (h : (edges.map Lane.left).Perm (List.range leftCount)) :
    ((List.range leftCount).flatMap fun left => edges.filter fun edge => edge.left = left).map
        Lane.left = List.range leftCount ∧
      ((List.range leftCount).flatMap fun left => edges.filter fun edge => edge.left = left).Perm
        edges := by
  constructor
  · rw [map_flatMap]
    have ho : ∀ left ∈ List.range leftCount,
        (edges.filter fun edge => edge.left = left).map Lane.left = [left] := by
      intro left hlf
      have hl : ((edges.filter fun edge => edge.left = left).map Lane.left).length = 1 := by
        rw [length_map, ← countP_eq_length_filter, countP_left, h.count_eq]
        exact count_eq_one_of_mem nodup_range hlf
      obtain ⟨x, hx⟩ := length_eq_one_iff.mp hl
      have hm : x ∈ (edges.filter fun edge => edge.left = left).map Lane.left := by
        rw [hx]
        exact mem_singleton_self x
      obtain ⟨edge, he, hxe⟩ := mem_map.mp hm
      rw [hx, ← hxe, of_decide_eq_true (mem_filter.mp he).2]
    rw [flatMap_congr ho]
    simp
  · exact Keyed.flatMap_filter_perm nodup_range fun edge he =>
      h.mem_iff.mp (mem_map_of_mem he)

theorem reconstruct_eq {saturated : List CandidateEdge}
    (h : (saturated.map Lane.left).Perm (List.range leftCount)) :
    reconstruct leftCount saturated = .ok ((List.range leftCount).flatMap fun left =>
      saturated.filter fun edge => edge.left = left) := by
  refine raiseIf_bind.mpr ⟨not_not.mpr (h.nodup_iff.mpr nodup_range), ?_⟩
  refine raiseIf_bind.mpr ⟨?_, rfl⟩
  rintro ⟨left, hlt, hn⟩
  exact hn (h.mem_iff.mpr (mem_range.mpr hlt))

theorem assignByFlow_full (ha : Ranged capacities leftCount candidates) {bound : ℕ}
    {solved : Solved Vertex}
    (h : Solving (flowNetwork capacities leftCount candidates) leftCount bound solved)
    (hfu : solved.flow = leftCount) : ∃ bound r, (∀ fuel ≥ bound,
      assignByFlow fuel capacities leftCount candidates = some (.ok r)) ∧
      Settles capacities leftCount candidates (.ok r) := by
  have hfl := h.flow
  rw [hfu] at hfl
  obtain ⟨hc, hln, hcs⟩ := chosen_of_flow network_flowNetwork.shaped h.frame hfl
  obtain ⟨hl, -⟩ := lefts_of_flow ha hc (by exact_mod_cast hln)
  obtain ⟨hm, hp⟩ := lefts_flatMap_filter hl
  obtain ⟨price, hpc⟩ := h.priced
  obtain ⟨bound', potentials, hcr, hpt⟩ :=
    @certificatePotentials_spec _ _ solved.graph (flowNodes capacities.length leftCount)
      negativeCycle price hpc (within_of_same (nodes_flowNetwork ha) h.frame)
      invalidCertificate
  have ht : solved.totalCost = (((List.range leftCount).flatMap fun left =>
      (chosen solved.graph).filter fun edge => edge.left = left).map Lane.cost).sum := by
    rw [← h.total, hcs, (hp.map Lane.cost).sum_eq]
  refine ⟨max bound bound', _, fun fuel hf => ?_, settles_of_certified h.frame hfl
    hp.symm hm ht hpt⟩
  rw [assignByFlow, h.run fuel (le_of_max_le_left hf)]
  dsimp only
  rw [if_neg (not_not.mpr hfu), reconstruct_eq hl]
  dsimp only
  rw [hcr fuel (le_of_max_le_right hf)]
  rfl

/-- The flow over rows or over types of rows settles the assignment. -/
theorem assignByFlow_settles (ha : Accepted capacities leftCount candidates) :
    ∃ bound result, (∀ fuel ≥ bound,
      assignByFlow fuel capacities leftCount candidates = some result) ∧
      Settles capacities leftCount candidates result := by
  obtain ⟨bound, solved, hrn, ho⟩ := solveFlow_spec (fresh_flowNetwork ha.toRanged)
    (by rw [sum_flowNetwork]; exact ha.sum) leftCount
  by_cases hf : solved.flow = leftCount
  · obtain ⟨bound', result, hr, hs⟩ := assignByFlow_full ha.toRanged
      ⟨hrn, ho.frame, ho.flow, ho.total, ho.priced⟩ hf
    exact ⟨bound', _, hr, hs⟩
  · refine ⟨bound, _, fun fuel hfl => ?_, settles_of_stuck (stuck_of_optimal ho hf)⟩
    rw [assignByFlow, hrn fuel hfl]
    dsimp only
    rw [if_pos hf]

/-!
## Lefts with equal rows

In a compressible instance the right and the left name a candidate, so that a row holds what a left
can be bound to. The types are the distinct rows, and their members are all lefts.

* `Compressible.candidate_ext` — the right and the left name a candidate
* `typeRows_spec`, `members_perm` — the types and their members
-/

variable {capacities : List ℤ} {leftCount : ℕ} {candidates : List CandidateEdge}
  {rows : List CostRow} {row : CostRow}

/-! ## rows -/

theorem mem_costRow {left : ℕ} {entry : ℕ × ℤ} : entry ∈ costRow candidates left ↔
    (⟨entry.1, left, entry.2⟩ : CandidateEdge) ∈ candidates := by
  rw [costRow, mem_sortedBy, mem_map]
  constructor
  · rintro ⟨candidate, hc, rfl⟩
    obtain ⟨hin, hl⟩ := mem_filter.mp hc
    have heq : candidate.left = left := of_decide_eq_true hl
    rw [← heq]
    exact hin
  · exact fun hin => ⟨_, mem_filter.mpr ⟨hin, decide_eq_true rfl⟩, rfl⟩

theorem pairwise_right : ∀ {row : CostRow}, (row.Pairwise fun a b => rowKey a ≤ rowKey b) →
    repeatedRight row = false → row.Pairwise fun a b => a.1 < b.1
  | [], _, _ => .nil
  | [_], _, _ => pairwise_singleton _ _
  | a :: b :: row, h, hr => by
    obtain ⟨hf, hrs⟩ := pairwise_cons.mp h
    have hs : repeatedRight (a :: b :: row) =
        (decide (a.1 = b.1) || repeatedRight (b :: row)) := rfl
    rw [hs, Bool.or_eq_false_iff] at hr
    have ih := pairwise_right hrs hr.2
    have hlt : a.1 < b.1 := by
      have hne := of_decide_eq_false hr.1
      rcases Prod.Lex.toLex_le_toLex.mp (hf b mem_cons_self) with hlt | ⟨heq, -⟩
      · exact hlt
      · exact absurd heq hne
    refine pairwise_cons.mpr ⟨fun c hc => ?_, ih⟩
    rcases mem_cons.mp hc with rfl | hc
    · exact hlt
    · exact hlt.trans ((pairwise_cons.mp ih).1 c hc)

structure Compressible (capacities : List ℤ) (leftCount : ℕ) (candidates : List CandidateEdge)
    (rows : List CostRow) : Prop where
  unit : ∀ capacity ∈ capacities, capacity = 1
  range : ∀ candidate ∈ candidates, candidate.left < leftCount ∧ candidate.right < capacities.length
  eq_rows : rows = (List.range leftCount).map (costRow candidates)
  sorted : ∀ entries ∈ rows, entries.Pairwise fun a b => a.1 < b.1

theorem compressible_of_rows (h : compressibleRows capacities leftCount candidates = some rows) :
    Compressible capacities leftCount candidates rows := by
  unfold compressibleRows at h
  dsimp only at h
  split_ifs at h with hb
  cases h
  simp only [not_or] at hb
  obtain ⟨hc, hrn, hrw, -, -⟩ := hb
  refine ⟨fun capacity hcp => ?_, fun c hcn => ?_, rfl, fun row hro => ?_⟩
  · by_contra hne
    exact hc ⟨capacity, hcp, hne⟩
  · by_contra ho
    exact hrn ⟨c, hcn, by omega⟩
  · have hr : repeatedRight row = false := by
      by_contra hr
      exact hrw ⟨row, hro, .inr (by simpa using hr)⟩
    obtain ⟨left, -, rfl⟩ := mem_map.mp hro
    exact pairwise_right (pairwise_sortedBy rowKey _) hr

section

variable (h : Compressible capacities leftCount candidates rows)
include h

theorem Compressible.getElem? {left : ℕ}
    (hl : left < leftCount) : rows[left]? = some (costRow candidates left) := by
  rw [h.eq_rows, List.getElem?_map, List.getElem?_range hl]
  rfl

theorem Compressible.length : rows.length = leftCount := by
  rw [h.eq_rows, length_map, length_range]

theorem Compressible.candidate_ext
    {a b : CandidateEdge} (ha : a ∈ candidates) (hb : b ∈ candidates) (hl : a.left = b.left)
    (hrg : a.right = b.right) : a = b := by
  have hrw : costRow candidates a.left ∈ rows := by
    rw [h.eq_rows]
    exact mem_map_of_mem (mem_range.mpr (h.range a ha).1)
  have hr : ((costRow candidates a.left).map Prod.fst).Nodup :=
    pairwise_map.mpr ((h.sorted _ hrw).imp Nat.ne_of_lt)
  have han : (a.right, a.cost) ∈ costRow candidates a.left := mem_costRow.mpr ha
  have hbn : (b.right, b.cost) ∈ costRow candidates a.left := by
    rw [hl]
    exact mem_costRow.mpr hb
  have heq : (a.right, a.cost) = (b.right, b.cost) := inj_on_of_nodup_map hr han hbn hrg
  cases a
  cases b
  simp_all

theorem Compressible.nodup : candidates.Nodup := by
  refine nodup_iff_count_le_one.mpr fun c => ?_
  by_cases hin : c ∈ candidates
  · have hr : costRow candidates c.left ∈ rows := by
      rw [h.eq_rows]
      exact mem_map_of_mem (mem_range.mpr (h.range c hin).1)
    have hnd : (costRow candidates c.left).Nodup :=
      (h.sorted _ hr).imp fun hlt heq => absurd (heq ▸ hlt) (lt_irrefl _)
    rw [costRow, nodup_sortedBy] at hnd
    have hf := Nodup.of_map _ hnd
    rw [← count_filter (p := fun other => other.left = c.left) (by simp)]
    exact nodup_iff_count_le_one.mp hf c
  · rw [count_eq_zero_of_not_mem hin]
    exact Nat.zero_le 1

end

/-! ## types -/

theorem typeRows_append (rows : List CostRow) (row : CostRow) : typeRows (rows ++ [row]) =
    if row ∈ typeRows rows then typeRows rows else typeRows rows ++ [row] := by
  rw [typeRows, foldl_append]
  rfl

theorem typeRows_spec : ∀ rows : List CostRow,
    (typeRows rows).Nodup ∧ (∀ row, row ∈ typeRows rows ↔ row ∈ rows) ∧
      (typeRows rows).Sublist rows := by
  intro rows
  induction rows using reverseRecOn with
  | nil => exact ⟨nodup_nil, fun _ => Iff.rfl, .slnil⟩
  | append_singleton rows row ih =>
    obtain ⟨hnd, hm, hs⟩ := ih
    rw [typeRows_append]
    split_ifs with hin
    · refine ⟨hnd, fun other => ?_, hs.trans (sublist_append_left _ _)⟩
      rw [hm, List.mem_append, mem_singleton]
      exact ⟨.inl, fun h => h.elim id fun heq => heq ▸ (hm row).mp hin⟩
    · refine ⟨?_, fun other => ?_, hs.append (Sublist.refl _)⟩
      · rw [nodup_append]
        refine ⟨hnd, nodup_singleton _, fun a ha b hb hab => ?_⟩
        rw [mem_singleton] at hb
        exact hin (hb ▸ hab ▸ ha)
      · rw [List.mem_append, hm, List.mem_append]

theorem mem_membersOf {left : ℕ} : left ∈ membersOf rows row ↔ rows[left]? = some row := by
  rw [membersOf, mem_filter, mem_range, decide_eq_true_eq]
  exact ⟨fun h => h.2, fun h => ⟨(List.getElem?_eq_some_iff.mp h).1, h⟩⟩

theorem members_perm (rows : List CostRow) :
    ((typeRows rows).flatMap (membersOf rows)).Perm (List.range rows.length) := by
  obtain ⟨hnd, hm, -⟩ := typeRows_spec rows
  refine (perm_ext_iff_of_nodup (nodup_flatMap.mpr
    ⟨fun row _ => nodup_range.filter _, ?_⟩) nodup_range).mpr fun left => ?_
  · refine hnd.imp fun {a b} hne => ?_
    intro left ha hb
    have ha : rows[left]? = some a := mem_membersOf.mp ha
    have hb : rows[left]? = some b := mem_membersOf.mp hb
    exact hne (Option.some.inj (ha.symm.trans hb))
  · rw [mem_flatMap, mem_range]
    constructor
    · rintro ⟨row, -, hl⟩
      exact (List.getElem?_eq_some_iff.mp (mem_membersOf.mp hl)).1
    · intro hlt
      exact ⟨rows[left], (hm _).mpr (getElem_mem hlt),
        mem_membersOf.mpr (List.getElem?_eq_getElem hlt)⟩

def typeOf (rows : List CostRow) (left : ℕ) : ℕ := (typeRows rows).idxOf ((rows[left]?).getD [])

theorem typeOf_spec {left : ℕ} (h : rows[left]? = some row) :
    typeOf rows left < (typeRows rows).length ∧
      (row, typeOf rows left) ∈ (typeRows rows).zipIdx := by
  have hm : row ∈ typeRows rows := ((typeRows_spec rows).2.1 row).mpr (mem_of_getElem? h)
  rw [typeOf, h, Option.getD_some]
  have hlt := idxOf_lt_length_of_mem hm
  refine ⟨hlt, List.mk_mem_zipIdx_iff_getElem?.mpr ?_⟩
  rw [List.getElem?_eq_getElem hlt, getElem_idxOf hlt]

end EmuFlow.BankChannels
