import EmuFlow.BankChannels.Types

/-!
# The compressed network

Each left of the compressed network stands for all lefts with one row. A complete assignment is a
choice of its lanes, so that without a full flow there is none.
-/

namespace EmuFlow.BankChannels

open Check ResidualGraph SortedSet Transport List

variable {capacities : List ℤ} {leftCount rightCount : ℕ} {candidates : List CandidateEdge}
  {rows : List CostRow} {row : CostRow}

theorem lanes_compressed : lanes (compressedNetwork rightCount rows) =
    (typeRows rows).zipIdx.flatMap fun type => type.1.map fun e =>
      { right := e.1, left := type.2, cost := e.2 } := by
  simp [lanes, compressedNetwork, filterMap_append, filterMap_map, Function.comp_def,
    filterMap_flatMap, filterMap_cons]

theorem mem_lanes_compressed {lane : Lane} : lane ∈ lanes (compressedNetwork rightCount rows) ↔
    ∃ row, (row, lane.left) ∈ (typeRows rows).zipIdx ∧ (lane.right, lane.cost) ∈ row := by
  rw [lanes_compressed, mem_flatMap]
  constructor
  · rintro ⟨⟨row, type⟩, ht, hl⟩
    obtain ⟨e, he, rfl⟩ := mem_map.mp hl
    exact ⟨row, ht, he⟩
  · rintro ⟨row, ht, he⟩
    exact ⟨(row, lane.left), ht, mem_map.mpr ⟨_, he, rfl⟩⟩

theorem mem_compressed {arc : Arc Vertex} (h : arc ∈ compressedNetwork rightCount rows) :
    (∃ right < rightCount, arc = supplyArc right 1) ∨
      (∃ lane ∈ lanes (compressedNetwork rightCount rows), arc = laneArc lane) ∨
      ∃ row type, (row, type) ∈ (typeRows rows).zipIdx ∧
        arc = demandArc type (membersOf rows row).length := by
  rw [lanes_compressed]
  simp only [compressedNetwork, List.mem_append, mem_map, mem_flatMap, mem_singleton] at h ⊢
  rcases h with ⟨right, hr, rfl⟩ | ⟨type, ht, ⟨entry, he, rfl⟩ | rfl⟩
  · exact .inl ⟨right, mem_range.mp hr, rfl⟩
  · exact .inr (.inl ⟨_, ⟨type, ht, entry, he, rfl⟩, rfl⟩)
  · exact .inr (.inr ⟨type.1, type.2, ht, rfl⟩)

theorem network_compressed : Network (compressedNetwork rightCount rows) := by
  refine ⟨fun arc har => ?_, ?_, ?_⟩
  · rcases mem_compressed har with ⟨_, _, rfl⟩ | ⟨_, _, rfl⟩ | ⟨_, _, _, rfl⟩
    · exact shaped_supplyArc _ _
    · exact shaped_laneArc _
    · exact shaped_demandArc _ _
  · have hn : (compressedNetwork rightCount rows).filterMap supplyName =
        List.range rightCount := by
      simp [compressedNetwork, filterMap_append, filterMap_map, Function.comp_def,
        filterMap_flatMap]
    rw [hn]
    exact nodup_range
  · have hn : (compressedNetwork rightCount rows).filterMap demandName =
        (typeRows rows).zipIdx.flatMap fun type => [type.2] := by
      simp [compressedNetwork, filterMap_append, filterMap_map, Function.comp_def,
        filterMap_flatMap]
    rw [hn, ← map_eq_flatMap, zipIdx_map_snd]
    exact nodup_range'

theorem supplyCapacity_compressed (right : ℕ) :
    supplyCapacity right (compressedNetwork rightCount rows) =
      if right < rightCount then 1 else 0 := by
  split_ifs with hr
  · have har : supplyArc right 1 ∈ compressedNetwork rightCount rows :=
      mem_append_left _ (mem_map_of_mem (mem_range.mpr hr))
    have hs : supplyCapacity right (compressedNetwork rightCount rows) =
        (supplyArc right 1).capacity + (supplyArc right 1).reverse :=
      sum_named network_compressed.supplies har rfl
    rw [hs]
    rfl
  · refine sum_unnamed fun arc har hn => ?_
    rcases mem_compressed har with ⟨other, hlt, rfl⟩ | ⟨_, _, rfl⟩ | ⟨_, _, _, rfl⟩
    · have heq : other = right := Option.some.inj hn
      exact hr (heq ▸ hlt)
    · cases hn
    · cases hn

theorem demandCapacity_compressed {type : ℕ} (h : (row, type) ∈ (typeRows rows).zipIdx) :
    demandCapacity type (compressedNetwork rightCount rows) = (membersOf rows row).length := by
  have har : demandArc type (membersOf rows row).length ∈ compressedNetwork rightCount rows := by
    refine mem_append_right _ (mem_flatMap.mpr ⟨(row, type), h, ?_⟩)
    exact mem_append_right _ (mem_singleton.mpr rfl)
  have hs : demandCapacity type (compressedNetwork rightCount rows) =
      (demandArc type (membersOf rows row).length).capacity +
        (demandArc type (membersOf rows row).length).reverse :=
    sum_named network_compressed.demands har rfl
  rw [hs]
  exact add_zero _

theorem demandCapacity_nonneg (type : ℕ) :
    0 ≤ demandCapacity type (compressedNetwork rightCount rows) := by
  refine sum_nonneg fun c hc => ?_
  obtain ⟨arc, har, rfl⟩ := mem_map.mp hc
  rcases mem_compressed har with ⟨_, _, rfl⟩ | ⟨_, _, rfl⟩ | ⟨_, _, _, rfl⟩ <;>
    split_ifs <;> simp [supplyArc, laneArc, demandArc]

/-! ## what the flow needs -/

theorem Compressible.entry_mem (h : Compressible capacities leftCount candidates rows)
    {left : ℕ} {entry : ℕ × ℤ} (he : entry ∈ row) (hl : left ∈ membersOf rows row) :
    (⟨entry.1, left, entry.2⟩ : CandidateEdge) ∈ candidates := by
  have hg := mem_membersOf.mp hl
  have hlt : left < leftCount := by
    rw [← h.length]
    exact (List.getElem?_eq_some_iff.mp hg).1
  rw [h.getElem? hlt, Option.some.injEq] at hg
  exact mem_costRow.mp (hg ▸ he)

theorem exists_member {type : ℕ} (h : (row, type) ∈ (typeRows rows).zipIdx) :
    ∃ left, left ∈ membersOf rows row := by
  have hm := ((typeRows_spec rows).2.1 row).mp (fst_mem_of_mem_zipIdx h)
  obtain ⟨left, hl⟩ := mem_iff_getElem?.mp hm
  exact ⟨left, mem_membersOf.mpr hl⟩

theorem fresh_compressed (ha : Ranged capacities leftCount candidates)
    (h : Compressible capacities leftCount candidates rows) :
    ∀ arc ∈ compressedNetwork rightCount rows,
      0 ≤ arc.capacity ∧ arc.reverse = 0 ∧ 0 ≤ arc.cost := by
  intro arc har
  rcases mem_compressed har with ⟨_, _, rfl⟩ | ⟨lane, hl, rfl⟩ | ⟨_, _, _, rfl⟩
  · exact ⟨zero_le_one, rfl, le_refl _⟩
  · obtain ⟨row, ht, he⟩ := mem_lanes_compressed.mp hl
    obtain ⟨left, hlf⟩ := exists_member ht
    exact ⟨zero_le_one, rfl, (ha.range _ (h.entry_mem he hlf)).2.2⟩
  · exact ⟨Int.natCast_nonneg _, rfl, le_refl _⟩

theorem sum_compressed : ((compressedNetwork rightCount rows).map Arc.cost).sum =
    ((typeRows rows).map fun row => (row.map Prod.snd).sum).sum := by
  have hz : (typeRows rows).map (fun row => (row.map Prod.snd).sum) =
      (typeRows rows).zipIdx.map fun type => (type.1.map Prod.snd).sum := by
    conv_lhs => rw [← zipIdx_map_fst 0 (typeRows rows), map_map]
    rfl
  rw [hz, compressedNetwork, map_append, sum_append, map_flatMap,
    flatMap_def, sum_flatten, map_map]
  simp [supplyArc, laneArc, demandArc, Function.comp_def]

theorem sum_costRow (h : ∀ c ∈ candidates, c.left < leftCount) :
    (((List.range leftCount).map (costRow candidates)).map fun row => (row.map Prod.snd).sum).sum =
      (candidates.map Lane.cost).sum := by
  have hr : ∀ left, ((costRow candidates left).map Prod.snd).sum =
      ((candidates.filter fun c => c.left = left).map Lane.cost).sum := by
    intro left
    rw [costRow, ((sortedBy_perm rowKey _).map Prod.snd).sum_eq, map_map]
    rfl
  have hp := @Keyed.flatMap_filter_perm _ _ _ Lane.left _ candidates (@nodup_range leftCount)
    fun c hc => mem_range.mpr (h c hc)
  rw [← (hp.map Lane.cost).sum_eq, map_flatMap, flatMap_def, sum_flatten, map_map, map_map]
  congr 1
  exact map_congr_left fun left _ => hr left

theorem sum_compressed_le (ha : Ranged capacities leftCount candidates)
    (h : Compressible capacities leftCount candidates rows) :
    ((compressedNetwork rightCount rows).map Arc.cost).sum ≤ (candidates.map Lane.cost).sum := by
  rw [sum_compressed, ← sum_costRow fun cand hcn => (h.range cand hcn).1,
    ← h.eq_rows]
  refine ((typeRows_spec rows).2.2.map _).sum_le_sum fun c hc => ?_
  obtain ⟨row, hr, rfl⟩ := mem_map.mp hc
  rw [h.eq_rows] at hr
  obtain ⟨left, -, rfl⟩ := mem_map.mp hr
  refine sum_nonneg fun c hc => ?_
  obtain ⟨e, he, rfl⟩ := mem_map.mp hc
  exact (ha.range _ (mem_costRow.mp he)).2.2

theorem nodes_compressed (h : Compressible capacities leftCount candidates rows) :
    ∀ arc ∈ compressedNetwork capacities.length rows,
      arc.source ∈ flowNodes capacities.length (typeRows rows).length ∧
        arc.target ∈ flowNodes capacities.length (typeRows rows).length := by
  have hr : ∀ {right}, right < capacities.length →
      Vertex.right right ∈ flowNodes capacities.length (typeRows rows).length := fun hlt => by
    simp [flowNodes, hlt]
  have hl : ∀ {row type}, (row, type) ∈ (typeRows rows).zipIdx →
      Vertex.left type ∈ flowNodes capacities.length (typeRows rows).length := fun ht => by
    have hlt := snd_lt_of_mem_zipIdx ht
    rw [Nat.add_zero] at hlt
    simp [flowNodes, hlt]
  intro arc har
  rcases mem_compressed har with ⟨right, hlt, rfl⟩ | ⟨lane, hln, rfl⟩ | ⟨row, type, ht, rfl⟩
  · exact ⟨by simp [flowNodes, supplyArc], hr hlt⟩
  · obtain ⟨row, ht, he⟩ := mem_lanes_compressed.mp hln
    obtain ⟨left, hm⟩ := exists_member ht
    exact ⟨hr (h.range _ (h.entry_mem he hm)).2, hl ht⟩
  · exact ⟨hl ht, by simp [flowNodes, demandArc]⟩

/-! ## assignments -/

section

variable (h : Compressible capacities leftCount candidates rows)
include h

theorem Compressible.getD_eq (right : ℕ) :
    capacities.getD right 0 = if right < capacities.length then 1 else 0 := by
  rw [getD_eq_getElem?_getD]
  split_ifs with hr
  · rw [List.getElem?_eq_getElem hr]
    exact h.unit _ (getElem_mem hr)
  · rw [List.getElem?_eq_none (not_lt.mp hr)]
    rfl

theorem Compressible.nodup_rights {choice : List CandidateEdge}
    (hc : Choice (flowNetwork capacities leftCount candidates) choice) :
    (choice.map Lane.right).Nodup := by
  refine nodup_iff_count_le_one.mpr fun right => ?_
  have hle := hc.rights right
  rw [supplyCapacity_flowNetwork, h.getD_eq, countP_right] at hle
  split_ifs at hle <;> omega

theorem Compressible.countP_typeOf_le {type : ℕ} (ht : (row, type) ∈ (typeRows rows).zipIdx) :
    (List.range leftCount).countP (fun left => typeOf rows left = type) ≤
      (membersOf rows row).length := by
  rw [membersOf, ← countP_eq_length_filter, h.length]
  refine countP_mono_left fun left hl hs => ?_
  have hg := h.getElem? (mem_range.mp hl)
  have ho := (typeOf_spec hg).2
  rw [of_decide_eq_true hs] at ho
  have heq : some (costRow candidates left) = some row :=
    (List.mk_mem_zipIdx_iff_getElem?.mp ho).symm.trans
      (List.mk_mem_zipIdx_iff_getElem?.mp ht)
  exact decide_eq_true (hg.trans heq)

end

def compress (rows : List CostRow) (edge : CandidateEdge) : Lane :=
  { edge with left := typeOf rows edge.left }

section

variable (ha : Ranged capacities leftCount candidates)
  (h : Compressible capacities leftCount candidates rows)
include ha h

/-- A choice of the lanes is one of the compressed lanes, at the same cost. -/
theorem choice_compress {edges : List CandidateEdge}
    (he : Choice (flowNetwork capacities leftCount candidates) edges) :
    ∃ choice, choice.Perm (edges.map (compress rows)) ∧
      Choice (compressedNetwork capacities.length rows) choice := by
  have hl := legal_of_choice he
  have hnd : (edges.map (compress rows)).Nodup := by
    refine Nodup.of_map Lane.right ?_
    rw [map_map]
    exact h.nodup_rights he
  have hln : ∀ lane ∈ edges.map (compress rows),
      lane ∈ lanes (compressedNetwork capacities.length rows) := by
    intro lane hla
    obtain ⟨edge, heg, rfl⟩ := mem_map.mp hla
    have hg := h.getElem? (ha.range edge (hl edge heg)).2.1
    exact mem_lanes_compressed.mpr ⟨_, (typeOf_spec hg).2, mem_costRow.mpr (hl edge heg)⟩
  obtain ⟨choice, hp, hs⟩ := Nodup.subperm hnd hln
  refine ⟨choice, hp, hs, fun right => ?_, fun type => ?_⟩
  · have hle := he.rights right
    rw [supplyCapacity_flowNetwork, h.getD_eq] at hle
    rw [hp.countP_eq, countP_map, supplyCapacity_compressed]
    exact hle
  · have hc : (edges.map (compress rows)).countP (fun lane => lane.left = type) ≤
        (List.range leftCount).countP fun left => typeOf rows left = type := by
      have hlt : (edges.map Lane.left).Subperm (List.range leftCount) :=
        Nodup.subperm (nodup_lefts_of_choice he) fun left hlf => by
          obtain ⟨edge, heg, rfl⟩ := mem_map.mp hlf
          exact mem_range.mpr (ha.range edge (hl edge heg)).2.1
      refine le_of_eq_of_le ?_ (hlt.countP_le _)
      rw [countP_map, countP_map]
      rfl
    rw [hp.countP_eq]
    by_cases ht : type < (typeRows rows).length
    · have hm : ((typeRows rows)[type], type) ∈ (typeRows rows).zipIdx :=
        List.mk_mem_zipIdx_iff_getElem?.mpr (List.getElem?_eq_getElem ht)
      rw [demandCapacity_compressed hm]
      exact_mod_cast hc.trans (h.countP_typeOf_le hm)
    · have hz : (List.range leftCount).countP (fun left => typeOf rows left = type) = 0 := by
        refine countP_eq_zero.mpr fun left hlf hsm => ht ?_
        have hg := h.getElem? (mem_range.mp hlf)
        rw [← of_decide_eq_true hsm]
        exact (typeOf_spec hg).1
      rw [hz] at hc
      rw [Nat.le_zero.mp hc]
      exact demandCapacity_nonneg type

theorem compressed_stuck (hs : ∀ other, other.map Arc.frame =
        (compressedNetwork capacities.length rows).map Arc.frame →
      ¬ Flow other .source .sink leftCount) :
    Settles capacities leftCount candidates (.error noAssignment) := by
  refine .none fun a hcm => ?_
  obtain ⟨edges, he, hc⟩ := choice_of_complete hcm
  obtain ⟨c, hp, hc'⟩ := choice_compress ha h hc
  obtain ⟨graph, hfr, -, hf, -⟩ := exists_flow network_compressed hc'
  rw [hp.length_eq, length_map, he.length_eq, hcm.length] at hf
  exact hs graph hfr hf

end

end EmuFlow.BankChannels
