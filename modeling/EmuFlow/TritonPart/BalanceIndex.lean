import EmuFlow.Lib.Check
import EmuFlow.TritonPart.Balance

/-!
# Moving vertices and the index of the movable ones

The index lists the movable vertices of each part by their weights, and the loads are those of the
labels, as long as all weights together are within 64 bits. A move of a movable vertex keeps both,
and it does not fail. A chain is planned on the index of one state and on loads moved ahead of the
labels; where no vertex is moved twice, making its moves leads to the planned loads.
-/

namespace EmuFlow.TritonPart

open SortedSet List Function
open MachineInt (int64)

variable {n : Sizes} {problem : Problem n}
  {s s' : State n}

/-! ## the index -/

section groups

variable {weights w : Weights n} {vertices : List (Fin n.vertices)}
  {vertex v : Fin n.vertices} {groups erased : Groups n}

@[simp] theorem verticesAt_setVertices : verticesAt w (setVertices weights vertices groups) =
    if w = weights then vertices else verticesAt w groups := by
  cases vertices with
  | nil =>
    simp only [setVertices, verticesAt, SortedDict.get_without, mem_singleton]
    split_ifs <;> rfl
  | cons first rest =>
    simp only [setVertices, verticesAt, SortedDict.get_set]
    split_ifs <;> rfl

theorem ascending_setVertices (h : SortedDict.Ascending groups) :
    SortedDict.Ascending (setVertices weights vertices groups) := by
  cases vertices with
  | nil => exact SortedDict.ascending_without h
  | cons first rest => exact SortedDict.ascending_set h

theorem verticesAt_of_mem (h : SortedDict.Ascending groups)
    {entry : Weights n × Group n} (he : entry ∈ groups) :
    verticesAt entry.1 groups = entry.2.vertices := by
  rw [verticesAt, SortedDict.get_of_mem h he]

theorem mem_insertVertex : v ∈ verticesAt w (insertVertex weights vertex groups) ↔
    (w = weights ∧ v = vertex) ∨ v ∈ verticesAt w groups := by
  rw [insertVertex, verticesAt_setVertices]
  by_cases hw : w = weights
  · simp [hw]
  · simp [hw]

theorem nodup_insertVertex (h : (verticesAt w groups).Nodup) :
    (verticesAt w (insertVertex weights vertex groups)).Nodup := by
  rw [insertVertex, verticesAt_setVertices]
  split_ifs
  · exact nodup_sortedSet _
  · exact h

theorem ascending_insertVertex (h : SortedDict.Ascending groups) :
    SortedDict.Ascending (insertVertex weights vertex groups) := ascending_setVertices h

theorem exists_eraseVertex (h : vertex ∈ verticesAt weights groups) :
    ∃ erased, eraseVertex weights vertex groups = some erased :=
  ⟨_, if_pos h⟩

section

variable (h : eraseVertex weights vertex groups = some erased)
include h

theorem eraseVertex_eq_some :
    erased = setVertices weights ((verticesAt weights groups).filter fun v => v ≠ vertex)
      groups := by
  unfold eraseVertex at h
  split_ifs at h
  exact (Option.some.inj h).symm

theorem mem_of_eraseVertex :
    v ∈ verticesAt w erased ↔ v ∈ verticesAt w groups ∧ ¬ (w = weights ∧ v = vertex) := by
  rw [eraseVertex_eq_some h, verticesAt_setVertices]
  by_cases hw : w = weights
  · simp [hw]
  · simp [hw]

theorem nodup_of_eraseVertex
    (hn : (verticesAt w groups).Nodup) : (verticesAt w erased).Nodup := by
  rw [eraseVertex_eq_some h, verticesAt_setVertices]
  split_ifs with hw
  · exact hw ▸ hn.filter _
  · exact hn

theorem ascending_of_eraseVertex
    (hg : SortedDict.Ascending groups) : SortedDict.Ascending erased :=
  eraseVertex_eq_some h ▸ ascending_setVertices hg

end

end groups

/-- What holds between the parts of a state at any time. -/
structure Indexed (problem : Problem n)
    (s : State n) : Prop where
  ascending : ∀ part, SortedDict.Ascending (s.movableGroups part)
  nodup : ∀ part weights, (verticesAt weights (s.movableGroups part)).Nodup
  mem_iff : ∀ part weights vertex, vertex ∈ verticesAt weights (s.movableGroups part) ↔
    s.labels vertex = part ∧ problem.fixed vertex = none ∧ problem.vertexWeights vertex = weights
  loads_eq : s.loads = loadsOf problem s.labels
  fixed_eq : ∀ vertex part, problem.fixed vertex = some part → s.labels vertex = part
  templates : ∀ part, ∀ step ∈ s.preferredChainTemplates part, step.source ≠ step.target

variable {entry : Weights n × Group n} {vertex : Fin n.vertices}

theorem Indexed.of_mem_group (hs : Indexed problem s) {part : Fin n.parts}
    (he : entry ∈ s.movableGroups part) (h : vertex ∈ entry.2.vertices) :
    s.labels vertex = part ∧ problem.fixed vertex = none ∧
      problem.vertexWeights vertex = entry.1 := by
  rw [← verticesAt_of_mem (hs.ascending part) he] at h
  exact (hs.mem_iff part entry.1 vertex).mp h

theorem Indexed.nodup_group (hs : Indexed problem s) {part : Fin n.parts}
    (he : entry ∈ s.movableGroups part) : entry.2.vertices.Nodup := by
  rw [← verticesAt_of_mem (hs.ascending part) he]
  exact hs.nodup part entry.1

theorem selectVertex_mem (delta : Fin n.vertices → ℚ) (group : Group n) :
    selectVertex delta group ∈ group.vertices := by
  have hf : ∀ (rest : List (Fin n.vertices)) (first : Fin n.vertices),
      rest.foldl (fun vertex c =>
        if lex (delta c) c < lex (delta vertex) vertex then c else vertex)
        first ∈ first :: rest := by
    intro rest
    induction rest with
    | nil => exact fun first => mem_cons_self
    | cons second rest ih =>
      intro first
      rw [foldl_cons]
      split_ifs
      · exact mem_cons_of_mem first (ih second)
      · rcases mem_cons.mp (ih first) with h | h
        · rw [h]
          exact mem_cons_self
        · exact mem_cons_of_mem first (mem_cons_of_mem second h)
  exact hf group.rest group.first

theorem initialGroups_spec (part : Fin n.parts) :
    SortedDict.Ascending (initialGroups problem part) ∧
      ∀ weights, (verticesAt weights (initialGroups problem part)).Nodup ∧
        ∀ vertex, vertex ∈ verticesAt weights (initialGroups problem part) ↔
          problem.assignment vertex = part ∧ problem.fixed vertex = none ∧
            problem.vertexWeights vertex = weights := by
  have hf : ∀ (vertices : List (Fin n.vertices)) (groups : Groups n),
      SortedDict.Ascending groups → (∀ weights, (verticesAt weights groups).Nodup) →
      SortedDict.Ascending (vertices.foldl (fun groups vertex =>
        insertVertex (problem.vertexWeights vertex) vertex groups) groups) ∧
      ∀ weights, (verticesAt weights (vertices.foldl (fun groups vertex =>
          insertVertex (problem.vertexWeights vertex) vertex groups) groups)).Nodup ∧
        ∀ vertex, vertex ∈ verticesAt weights (vertices.foldl (fun groups vertex =>
            insertVertex (problem.vertexWeights vertex) vertex groups) groups) ↔
          (vertex ∈ vertices ∧ problem.vertexWeights vertex = weights) ∨
            vertex ∈ verticesAt weights groups := by
    intro vertices
    induction vertices with
    | nil => exact fun groups h hn => ⟨h, fun weights => ⟨hn weights, by simp⟩⟩
    | cons first vertices ih =>
      intro groups h hn
      obtain ⟨ha, hr⟩ := ih _ (ascending_insertVertex h)
        fun weights => nodup_insertVertex (hn weights)
      refine ⟨ha, fun weights => ⟨(hr weights).1, fun vertex => ?_⟩⟩
      rw [foldl_cons, (hr weights).2 vertex, mem_insertVertex, mem_cons]
      constructor
      · rintro (⟨hm, hw⟩ | ⟨hw, rfl⟩ | hm)
        · exact .inl ⟨.inr hm, hw⟩
        · exact .inl ⟨.inl rfl, hw.symm⟩
        · exact .inr hm
      · rintro (⟨rfl | hm, hw⟩ | hm)
        · exact .inr (.inl ⟨hw.symm, rfl⟩)
        · exact .inl ⟨hm, hw⟩
        · exact .inr (.inr hm)
  obtain ⟨ha, hr⟩ := hf ((finRange n.vertices).filter fun vertex =>
    problem.assignment vertex = part ∧ problem.fixed vertex = none) []
    SortedDict.ascending_nil fun weights => nodup_nil
  refine ⟨ha, fun weights => ⟨(hr weights).1, fun vertex => ?_⟩⟩
  rw [initialGroups, (hr weights).2 vertex]
  simp [verticesAt, and_assoc]

/-! ## loads -/

/-- The weights of all vertices add up within 64 bits. -/
def Problem.LoadsInRange (problem : Problem n) : Prop :=
  ∀ dimension, ∑ vertex, (problem.vertexWeights vertex).amount dimension < 2 ^ 63

theorem loadsOf_nonneg (labels : Fin n.vertices → Fin n.parts) (part : Fin n.parts)
    (dimension : Fin n.dimensions) : 0 ≤ loadsOf problem labels part dimension :=
  Reassign.total_nonneg (fun vertex => problem.weights_nonneg vertex dimension) labels part

theorem loadsOf_lt (hr : problem.LoadsInRange) (labels : Fin n.vertices → Fin n.parts)
    (part : Fin n.parts) (dimension : Fin n.dimensions) :
    loadsOf problem labels part dimension < 2 ^ 63 := by
  refine (Finset.sum_le_sum fun vertex _ => ?_).trans_lt (hr dimension)
  split_ifs
  · exact le_rfl
  · exact problem.weights_nonneg vertex dimension

theorem int64_loadsOf (hr : problem.LoadsInRange) (labels : Fin n.vertices → Fin n.parts)
    (part : Fin n.parts) (dimension : Fin n.dimensions) :
    int64 (loadsOf problem labels part dimension) = loadsOf problem labels part dimension := by
  have hge : 0 ≤ loadsOf problem labels part dimension := loadsOf_nonneg labels part dimension
  exact MachineInt.int64_eq (by omega) (loadsOf_lt hr labels part dimension)

theorem weight_lt (hr : problem.LoadsInRange) (vertex : Fin n.vertices)
    (dimension : Fin n.dimensions) : (problem.vertexWeights vertex).amount dimension < 2 ^ 63 :=
  (Finset.single_le_sum (f := fun v => (problem.vertexWeights v).amount dimension)
    (fun v _ => problem.weights_nonneg v dimension) (Finset.mem_univ vertex)).trans_lt
      (hr dimension)

theorem indexed_initialState (hr : problem.LoadsInRange) :
    Indexed problem (initialState problem) where
  ascending part := (initialGroups_spec part).1
  nodup part weights := ((initialGroups_spec part).2 weights).1
  mem_iff part weights vertex := ((initialGroups_spec part).2 weights).2 vertex
  loads_eq := funext fun _ => funext fun _ => int64_loadsOf hr _ _ _
  fixed_eq := problem.fixed_eq
  templates _ _ h := absurd h not_mem_nil

theorem loadsOf_update (labels : Fin n.vertices → Fin n.parts) (vertex : Fin n.vertices)
    (target part : Fin n.parts) (dimension : Fin n.dimensions) :
    loadsOf problem (update labels vertex target) part dimension =
      Reassign.shift (fun q => loadsOf problem labels q dimension) (labels vertex) target
        ((problem.vertexWeights vertex).amount dimension) part := by
  show Reassign.total _ (update labels vertex target) part = _
  rw [Reassign.total_update]
  rfl

variable {source target : Fin n.parts}

/-- A move of one vertex does not wrap. -/
theorem moveLoads_eq (hr : problem.LoadsInRange) (hs : Indexed problem s)
    (hl : s.labels vertex = source) (target part : Fin n.parts) (dimension : Fin n.dimensions) :
    moveLoads s.loads source target (problem.vertexWeights vertex).amount part dimension =
      Reassign.shift (fun q => s.loads q dimension) source target
        ((problem.vertexWeights vertex).amount dimension) part := by
  rw [moveLoads, hs.loads_eq, ← hl, ← loadsOf_update, int64_loadsOf hr]

theorem apply_spec (hr : problem.LoadsInRange) (hs : Indexed problem s)
    (hl : s.labels vertex = source) (hf : problem.fixed vertex = none)
    (hne : source ≠ target) :
    ∃ s', apply problem s vertex source target = .ok s' ∧ Indexed problem s' ∧
      s'.labels = update s.labels vertex target ∧
      s'.loads = moveLoads s.loads source target (problem.vertexWeights vertex).amount := by
  have hm : vertex ∈ verticesAt (problem.vertexWeights vertex) (s.movableGroups source) :=
    (hs.mem_iff _ _ _).mpr ⟨hl, hf, rfl⟩
  obtain ⟨erased, he⟩ := exists_eraseVertex hm
  unfold apply
  rw [if_neg (by simp [hl, hf])]
  dsimp only
  rw [he]
  dsimp only
  generalize hu : update (update s.movableGroups source erased) target
    (insertVertex (problem.vertexWeights vertex) vertex
      (update s.movableGroups source erased target)) = updated
  refine ⟨_, rfl, ?_, rfl, rfl⟩
  have hg : ∀ part, updated part = if part = target then
        insertVertex (problem.vertexWeights vertex) vertex (s.movableGroups target)
      else if part = source then erased else s.movableGroups part := by
    intro part
    rw [← hu]
    split_ifs with ht hp
    · rw [ht, update_self, update_of_ne hne.symm]
    · rw [hp, update_of_ne (hp ▸ ht), update_self]
    · rw [update_of_ne ht, update_of_ne hp]
  constructor
  · intro part
    show SortedDict.Ascending (updated part)
    rw [hg]
    split_ifs
    · exact ascending_insertVertex (hs.ascending target)
    · exact ascending_of_eraseVertex he (hs.ascending source)
    · exact hs.ascending part
  · intro part weights
    show (verticesAt weights (updated part)).Nodup
    rw [hg]
    split_ifs
    · exact nodup_insertVertex (hs.nodup target weights)
    · exact nodup_of_eraseVertex he (hs.nodup source weights)
    · exact hs.nodup part weights
  · intro part weights v
    show v ∈ verticesAt weights (updated part) ↔ update s.labels vertex target v = part ∧ _
    rw [hg]
    by_cases hv : v = vertex
    -- the vertex itself is listed at the target only
    · subst hv
      rw [update_self]
      split_ifs with ht hp
      · rw [mem_insertVertex, hs.mem_iff]
        constructor
        · rintro (⟨hw, -⟩ | ⟨hsr, -⟩)
          · exact ⟨ht.symm, hf, hw.symm⟩
          · exact absurd (hl.symm.trans hsr) hne
        · rintro ⟨-, -, hw⟩
          exact .inl ⟨hw.symm, rfl⟩
      · rw [mem_of_eraseVertex he, hs.mem_iff]
        constructor
        · rintro ⟨⟨-, -, hw⟩, hn⟩
          exact absurd ⟨hw.symm, rfl⟩ hn
        · rintro ⟨h, -⟩
          exact absurd h.symm ht
      · rw [hs.mem_iff]
        constructor
        · rintro ⟨h, -⟩
          exact absurd (h.symm.trans hl) hp
        · rintro ⟨h, -⟩
          exact absurd h.symm ht
    · rw [update_of_ne hv]
      split_ifs with ht hp
      · rw [mem_insertVertex, hs.mem_iff, ht]
        simp [hv]
      · rw [mem_of_eraseVertex he, hs.mem_iff, hp]
        simp [hv]
      · exact hs.mem_iff part weights v
  · show moveLoads s.loads source target _ = loadsOf problem (update s.labels vertex target)
    funext part dimension
    rw [moveLoads_eq hr hs hl, loadsOf_update, hl, hs.loads_eq]
  · intro v part hv
    show update s.labels vertex target v = part
    have hne' : v ≠ vertex := by
      rintro rfl
      rw [hf] at hv
      cases hv
    rw [update_of_ne hne']
    exact hs.fixed_eq v part hv
  · exact hs.templates

/-! ## several moves -/

def planLoads (problem : Problem n)
    (loads : Fin n.parts → Fin n.dimensions → ℤ) (move : Move n) :
    Fin n.parts → Fin n.dimensions → ℤ :=
  move.vertices.foldl (fun loads vertex =>
    moveLoads loads move.source move.target (problem.vertexWeights vertex).amount) loads

theorem moveLoads_moveLoads (loads : Fin n.parts → Fin n.dimensions → ℤ)
    (source target : Fin n.parts) (a b : Fin n.dimensions → ℤ) :
    moveLoads (moveLoads loads source target a) source target b =
      moveLoads loads source target fun dimension => a dimension + b dimension := by
  funext part dimension
  simp only [moveLoads, Reassign.shift]
  split_ifs <;> simp only [sub_eq_add_neg, add_assoc, MachineInt.int64_add_int64] <;> congr 1 <;>
    ring

theorem moveLoads_int64 (loads : Fin n.parts → Fin n.dimensions → ℤ)
    (source target : Fin n.parts) (a : Fin n.dimensions → ℤ) :
    moveLoads loads source target (fun d => int64 (a d)) =
      moveLoads loads source target a := by
  funext part d
  simp only [moveLoads, Reassign.shift]
  split_ifs
  · rw [MachineInt.add_int64, sub_add_eq_add_sub, MachineInt.sub_int64]
    congr 1
    ring
  all_goals simp

theorem planLoads_eq {weights : Weights n} : ∀ {vertices : List (Fin n.vertices)}
      {loads : Fin n.parts → Fin n.dimensions → ℤ}, vertices ≠ [] →
      (∀ vertex ∈ vertices, problem.vertexWeights vertex = weights) →
      planLoads problem loads ⟨vertices, source, target⟩ =
        moveLoads loads source target fun d => weights.amount d * vertices.length
  | [], _, hne, _ => absurd rfl hne
  | [vertex], loads, _, h => by
    show moveLoads loads source target (problem.vertexWeights vertex).amount = _
    simp [h vertex mem_cons_self]
  | vertex :: second :: vertices, loads, _, h => by
    have hs : planLoads problem loads ⟨vertex :: second :: vertices, source, target⟩ =
        planLoads problem (moveLoads loads source target (problem.vertexWeights vertex).amount)
          ⟨second :: vertices, source, target⟩ := rfl
    rw [hs, planLoads_eq (cons_ne_nil _ _) fun v hv => h v (mem_cons_of_mem vertex hv),
      h vertex mem_cons_self, moveLoads_moveLoads]
    congr 1
    funext d
    simp only [length_cons]
    push_cast
    ring

/-- Whether a move may be made: its vertices are movable and in the source. -/
structure Legal (problem : Problem n)
    (s : State n) (move : Move n) :
    Prop where
  vertices_ne : move.vertices ≠ []
  apart : move.source ≠ move.target
  movable : ∀ vertex ∈ move.vertices, s.labels vertex = move.source ∧ problem.fixed vertex = none

theorem applyMove_spec (hr : problem.LoadsInRange) (hne : source ≠ target) :
    ∀ {vertices : List (Fin n.vertices)} {s : State n},
      Indexed problem s → vertices.Nodup →
      (∀ vertex ∈ vertices, s.labels vertex = source ∧ problem.fixed vertex = none) →
      ∃ s', applyMove problem s ⟨vertices, source, target⟩ = .ok s' ∧ Indexed problem s' ∧
        (∀ vertex, vertex ∉ vertices → s'.labels vertex = s.labels vertex) ∧
        s'.loads = planLoads problem s.loads ⟨vertices, source, target⟩
  | [], s, hs, _, _ => ⟨s, rfl, hs, fun _ _ => rfl, rfl⟩
  | vertex :: vertices, s, hs, hnd, h => by
    obtain ⟨hvr, hnd⟩ := nodup_cons.mp hnd
    obtain ⟨hll, hf⟩ := h vertex mem_cons_self
    obtain ⟨next, hn, hin, hl, hld⟩ := apply_spec hr hs hll hf hne
    have hrs : ∀ v ∈ vertices, next.labels v = source ∧ problem.fixed v = none := by
      intro v hv
      rw [hl, update_of_ne fun heq : v = vertex => hvr (heq ▸ hv)]
      exact h v (mem_cons_of_mem vertex hv)
    obtain ⟨s', hs', hin', hl', hld'⟩ := applyMove_spec hr hne hin hnd hrs
    refine ⟨s', Check.bind_eq_ok.mpr ⟨next, hn, hs'⟩, hin', fun v hv => ?_, ?_⟩
    · rw [mem_cons, not_or] at hv
      rw [hl' v hv.2, hl, update_of_ne hv.1]
    · rw [hld', hld]
      rfl

theorem applySequence_spec (hr : problem.LoadsInRange) : ∀ {sequence : List (Move n)} {s : State n},
      Indexed problem s → (sequence.flatMap Move.vertices).Nodup →
      (∀ move ∈ sequence, Legal problem s move) →
      ∃ s', applySequence problem s sequence = .ok s' ∧ Indexed problem s' ∧
        s'.loads = sequence.foldl (planLoads problem) s.loads
  | [], s, hs, _, _ => ⟨s, rfl, hs, rfl⟩
  | move :: sequence, s, hs, hnd, h => by
    rw [flatMap_cons, nodup_append'] at hnd
    obtain ⟨hm, hnd, hd⟩ := hnd
    have hl := h move mem_cons_self
    obtain ⟨next, hn, hid, hlb, hld⟩ :=
      applyMove_spec hr hl.apart hs hm hl.movable
    have hrs : ∀ other ∈ sequence, Legal problem next other := by
      intro other ho
      have hl' := h other (mem_cons_of_mem move ho)
      refine ⟨hl'.vertices_ne, hl'.apart, fun v hv => ?_⟩
      -- a vertex of a later move has not moved yet
      have hv' : v ∉ move.vertices := fun hin =>
        hd hin (mem_flatMap.mpr ⟨other, ho, hv⟩)
      rw [hlb v hv']
      exact hl'.movable v hv
    obtain ⟨s', hs', hid', hld'⟩ := applySequence_spec hr hid hnd hrs
    refine ⟨s', Check.bind_eq_ok.mpr ⟨next, hn, hs'⟩, hid', ?_⟩
    rw [hld', hld]
    rfl

/-- A chain that can be made: no vertex is moved twice, and `loads` are the loads after it. -/
structure Plan (problem : Problem n)
    (s : State n) (moved : List (Fin n.vertices))
    (sequence : List (Move n)) (loads : Fin n.parts → Fin n.dimensions → ℤ) :
    Prop where
  moved_iff : ∀ vertex, vertex ∈ moved ↔ vertex ∈ sequence.flatMap Move.vertices
  nodup : (sequence.flatMap Move.vertices).Nodup
  legal : ∀ move ∈ sequence, Legal problem s move
  loads_eq : loads = sequence.foldl (planLoads problem) s.loads

theorem Plan.nil : Plan problem s [] [] s.loads :=
  ⟨fun _ => Iff.rfl, nodup_nil, fun _ h => absurd h not_mem_nil, rfl⟩

variable {loads : Fin n.parts → Fin n.dimensions → ℤ} {sequence : List (Move n)}

theorem Plan.extend {moved moved' vertices : List (Fin n.vertices)}
    (h : Plan problem s moved sequence loads) (hs : Indexed problem s) (weights : Weights n)
    (hmv : ∀ vertex, vertex ∈ moved' ↔ vertex ∈ moved ∨ vertex ∈ vertices)
    (hn : vertices.Nodup) (hne : vertices ≠ []) (ha : source ≠ target)
    (hvr : ∀ vertex ∈ vertices,
      vertex ∈ verticesAt weights (s.movableGroups source) ∧ vertex ∉ moved) :
    Plan problem s moved' (sequence ++ [⟨vertices, source, target⟩])
      (moveLoads loads source target fun d =>
        int64 (weights.amount d * vertices.length)) := by
  have hg : ∀ vertex ∈ vertices, s.labels vertex = source ∧ problem.fixed vertex = none ∧
      problem.vertexWeights vertex = weights :=
    fun vertex hv => (hs.mem_iff _ _ _).mp (hvr vertex hv).1
  refine ⟨fun vertex => ?_, ?_, fun move hm => ?_, ?_⟩
  · rw [hmv, h.moved_iff]
    simp
  · rw [flatMap_append, nodup_append']
    refine ⟨h.nodup, by simpa using hn, fun vertex hin ho => ?_⟩
    have hv : vertex ∈ vertices := by simpa using ho
    exact (hvr vertex hv).2 ((h.moved_iff vertex).mpr hin)
  · rcases List.mem_append.mp hm with hm | hm
    · exact h.legal move hm
    · rw [mem_singleton.mp hm]
      exact ⟨hne, ha, fun vertex hv => ⟨(hg vertex hv).1, (hg vertex hv).2.1⟩⟩
  · rw [foldl_append, ← h.loads_eq]
    exact (moveLoads_int64 _ _ _ _).trans
      (planLoads_eq hne fun vertex hv => (hg vertex hv).2.2).symm

theorem Plan.apply (hr : problem.LoadsInRange) {moved : List (Fin n.vertices)}
    (h : Plan problem s moved sequence loads)
    (hs : Indexed problem s) :
    ∃ s', applySequence problem s sequence = .ok s' ∧ Indexed problem s' ∧ s'.loads = loads := by
  obtain ⟨s', hs', hi, hl⟩ := applySequence_spec hr hs h.nodup h.legal
  exact ⟨s', hs', hi, hl.trans h.loads_eq.symm⟩

end EmuFlow.TritonPart
