import EmuFlow.TritonPart.BalanceIndex

/-!
# Every repair lowers the overload

Every kind of repair keeps the index right and lowers the sum of all overloads, and no part is
overloaded more than before in any dimension. So the legalizer ends, and where it does without an
error no part is overloaded. The weights of all vertices are taken to add up within 64 bits.
-/

namespace EmuFlow.TritonPart

open SortedSet List Check Option Function
open MachineInt (int64 int64_eq int64_lt)

variable {n : Sizes} {problem : Problem n}
  {s s' : State n}

/-! ## overload -/

def totalOverload (problem : Problem n)
    (s : State n) : ℤ :=
  ∑ part, ∑ dimension, overload problem s part dimension

/-- The total overload falls, and no overload rises. -/
structure Improves (problem : Problem n)
    (s s' : State n) : Prop where
  overload_le : ∀ part dimension,
    overload problem s' part dimension ≤ overload problem s part dimension
  total_lt : totalOverload problem s' < totalOverload problem s

theorem Improves.trans {s'' : State n}
    (h : Improves problem s s') (h' : Improves problem s' s'') : Improves problem s s'' :=
  ⟨fun part dimension => (h'.overload_le part dimension).trans (h.overload_le part dimension),
    h'.total_lt.trans h.total_lt⟩

theorem overload_nonneg (part : Fin n.parts) (dimension : Fin n.dimensions) :
    0 ≤ overload problem s part dimension := le_max_left _ _

theorem totalOverload_nonneg : 0 ≤ totalOverload problem s :=
  Finset.sum_nonneg fun part _ => Finset.sum_nonneg fun dimension _ =>
    overload_nonneg part dimension

variable {dimension : Fin n.dimensions} {part : Fin n.parts}

section range

variable (hrange : problem.LoadsInRange)

include hrange

theorem Indexed.loads_range (hs : Indexed problem s) (part : Fin n.parts)
    (dimension : Fin n.dimensions) :
    0 ≤ s.loads part dimension ∧ s.loads part dimension < 2 ^ 63 := by
  rw [hs.loads_eq]
  exact ⟨loadsOf_nonneg _ _ _, loadsOf_lt hrange _ _ _⟩

/-- A part has room for the weight of a vertex of another part. -/
theorem Indexed.loads_add_lt (hs : Indexed problem s) {vertex : Fin n.vertices}
    {target : Fin n.parts} (hne : s.labels vertex ≠ target) (dimension : Fin n.dimensions) :
    s.loads target dimension + (problem.vertexWeights vertex).amount dimension < 2 ^ 63 := by
  have hlt := loadsOf_lt hrange (update s.labels vertex target) target dimension
  rw [loadsOf_update, Reassign.shift_target hne] at hlt
  rwa [hs.loads_eq]

theorem overload_eq (hs : Indexed problem s) (part : Fin n.parts) (dimension : Fin n.dimensions) :
    overload problem s part dimension =
      max 0 (s.loads part dimension - problem.allowed part dimension) := by
  have hl := hs.loads_range hrange part dimension
  have hge := problem.allowed_nonneg part dimension
  have hlt := problem.allowed_lt part dimension
  rw [overload, int64_eq (by omega) (by omega)]

theorem overload_pos_iff (hs : Indexed problem s) : 0 < overload problem s part dimension ↔
    problem.allowed part dimension < s.loads part dimension := by
  rw [overload_eq hrange hs]
  omega

theorem improves_of (hs : Indexed problem s) (hs' : Indexed problem s')
    (hle : ∀ part dimension, s'.loads part dimension ≤
      max (problem.allowed part dimension) (s.loads part dimension))
    (ho : problem.allowed part dimension < s.loads part dimension)
    (hlt : s'.loads part dimension < s.loads part dimension) : Improves problem s s' := by
  have hp : ∀ p d, overload problem s' p d ≤ overload problem s p d := by
    intro p d
    have := hle p d
    rw [overload_eq hrange hs, overload_eq hrange hs']
    omega
  refine ⟨hp, ?_⟩
  refine Finset.sum_lt_sum (fun p _ => Finset.sum_le_sum fun d _ => hp p d)
    ⟨part, Finset.mem_univ part, ?_⟩
  refine Finset.sum_lt_sum (fun d _ => hp part d) ⟨dimension, Finset.mem_univ dimension, ?_⟩
  rw [overload_eq hrange hs, overload_eq hrange hs']
  omega

end range

variable {excess : Fin n.dimensions → ℤ} {weights : Weights n}

theorem contributes_iff : contributes excess weights = true ↔
      ∃ dimension, 0 < excess dimension ∧ 0 < weights.amount dimension := by
  simp [contributes]

theorem fits_iff : fits problem s weights part = true ↔ ∀ dimension,
      int64 (s.loads part dimension + weights.amount dimension) ≤
        problem.allowed part dimension := by
  simp [fits]

theorem share_pos_iff {amount : ℤ} : 0 < share problem part dimension amount ↔ 0 < amount := by
  have hp : (0 : ℚ) < (max 1 (problem.allowed part dimension) : ℤ) :=
    Int.cast_pos.mpr (lt_max_of_lt_left Int.one_pos)
  unfold share
  rw [div_pos_iff_of_pos_right hp, Int.cast_pos]

theorem relief_nonpos {amounts : Fin n.dimensions → ℤ}
    (h : ∀ dimension, ¬(0 < amounts dimension ∧ 0 < excess dimension)) :
    relief problem part amounts excess ≤ 0 := by
  have hsh : ∀ dimension ∈ finRange n.dimensions, share problem part dimension
      (min (amounts dimension) (excess dimension)) ≤ 0 := by
    intro dimension _
    refine not_lt.mp fun hsr => h dimension ?_
    have := share_pos_iff.mp hsr
    omega
  have hsm := sum_le_sum (g := fun _ => (0 : ℚ)) hsh
  exact hsm.trans (by simp)

theorem contributes_of_relief (h : 0 < relief problem part weights.amount excess) :
    contributes excess weights = true := by
  by_contra hn
  rw [contributes_iff, not_exists] at hn
  exact absurd h (not_lt.mpr (relief_nonpos fun dimension hb => hn dimension hb.symm))

variable {source target : Fin n.parts} {vertex : Fin n.vertices}

theorem improves_of_fits (hrange : problem.LoadsInRange) (hs : Indexed problem s)
    (hs' : Indexed problem s') (hlb : s.labels vertex = source) (hne : target ≠ source)
    (hc : contributes (overload problem s source) (problem.vertexWeights vertex) = true)
    (hf : fits problem s (problem.vertexWeights vertex) target = true)
    (hl : s'.loads = moveLoads s.loads source target (problem.vertexWeights vertex).amount) :
    Improves problem s s' := by
  obtain ⟨dimension, ho, hps⟩ := contributes_iff.mp hc
  have hsr : ∀ d, s'.loads source d =
      s.loads source d - (problem.vertexWeights vertex).amount d := by
    intro d
    rw [hl, moveLoads_eq hrange hs hlb, Reassign.shift_source hne.symm]
  refine improves_of hrange hs hs' (fun p d => ?_) ((overload_pos_iff hrange hs).mp ho)
    (by rw [hsr]; exact sub_lt_self _ hps)
  have hn := problem.weights_nonneg vertex d
  by_cases hp : p = source
  · rw [hp, hsr]
    exact le_max_of_le_right (sub_le_self _ hn)
  by_cases ht : p = target
  · rw [ht, hl, moveLoads, Reassign.shift_target hne.symm]
    exact le_max_of_le_left (fits_iff.mp hf d)
  · rw [hl, moveLoads_eq hrange hs hlb, Reassign.shift_of_ne hp ht]
    exact le_max_right _ _

def Sound (problem : Problem n)
    (s : State n)
    (result : Except String (Option (State n))) : Prop :=
  ∃ change, result = .ok change ∧
    ∀ s', change = some s' → Indexed problem s' ∧ Improves problem s s'

theorem Sound.none : Sound problem s (.ok none) := ⟨_, rfl, fun _ h => by cases h⟩

theorem Sound.some (hs' : Indexed problem s') (h : Improves problem s s') :
    Sound problem s (.ok (some s')) :=
  ⟨_, rfl, fun _ hsm => some.inj hsm ▸ ⟨hs', h⟩⟩

/-! ## direct moves -/

theorem of_bestTarget (h : bestTarget problem s weights vertex source = some target) :
    target ≠ source ∧ fits problem s weights target = true := by
  have hm := argmin_mem (mem_def.mpr h)
  simpa using (mem_filter.mp hm).2

theorem exists_bestTarget (vertex : Fin n.vertices) (hne : target ≠ source)
    (h : fits problem s weights target = true) :
    ∃ best, bestTarget problem s weights vertex source = some best := by
  refine ne_none_iff_exists'.mp fun hn => ?_
  have hnl := argmin_eq_none.mp hn
  exact ne_nil_of_mem (mem_filter.mpr ⟨mem_finRange target, by simp [hne, h]⟩) hnl

theorem directOf_vertex {source : Fin n.parts} {relief : ℚ} {candidate : Direct n}
    (h : directOf problem s source relief weights vertex = .ok candidate) :
    candidate.vertex = vertex := by
  unfold directOf at h
  split at h
  · cases h
  · rw [← Except.ok.inj h]

theorem exists_directGroup (source : Fin n.parts) (excess : Fin n.dimensions → ℤ)
    (entry : Weights n × Group n) :
    ∃ cands, directGroup problem s source excess entry = .ok cands ∧
      ∀ candidate ∈ cands, candidate.vertex ∈ entry.2.vertices := by
  unfold directGroup
  dsimp only
  split_ifs with hr ha
  · exact ⟨[], rfl, fun _ h => absurd h not_mem_nil⟩
  · obtain ⟨target, -, ht⟩ := any_eq_true.mp ha
    obtain ⟨hne, hf⟩ : target ≠ source ∧ fits problem s entry.1 target = true := by
      simpa using ht
    have ho : ∀ vertex ∈ entry.2.vertices, ∃ candidate, directOf problem s source
        (relief problem source entry.1.amount excess) entry.1 vertex = .ok candidate := by
      intro vertex _
      obtain ⟨best, hb⟩ := exists_bestTarget vertex hne hf
      unfold directOf
      rw [hb]
      exact ⟨_, rfl⟩
    obtain ⟨cands, hc⟩ := exists_mapM_eq_ok ho
    refine ⟨cands, hc, fun candidate hm => ?_⟩
    obtain ⟨vertex, hv, heq⟩ := exists_of_mem_mapM hc hm
    rw [directOf_vertex heq]
    exact hv
  · exact ⟨[], rfl, fun _ h => absurd h not_mem_nil⟩

theorem directLoop_sound (hrange : problem.LoadsInRange) {start : State n} (source : Fin n.parts) :
    ∀ {candidates : List (Direct n)} {changed : Bool} {s : State n}, Indexed problem s →
      (∀ cand ∈ candidates, problem.fixed cand.vertex = none) →
      (changed = false ∧ s = start ∨ changed = true ∧ Improves problem start s) →
      Sound problem start (directLoop problem source candidates s changed)
  | [], changed, s, hs, _, hch => by
    rcases hch with ⟨rfl, rfl⟩ | ⟨rfl, hi⟩
    · exact Sound.none
    · exact Sound.some hs hi
  | cand :: candidates, changed, s, hs, hf, hch => by
    have hr : ∀ c ∈ candidates, problem.fixed c.vertex = none :=
      fun c hc => hf c (mem_cons_of_mem cand hc)
    have hsk := directLoop_sound hrange source hs hr hch
    rw [directLoop]
    split
    · rcases hch with ⟨rfl, rfl⟩ | ⟨rfl, hi⟩
      · exact Sound.none
      · exact Sound.some hs hi
    split
    · exact hsk
    next hl =>
    split
    · exact hsk
    next hcn =>
    cases hb : bestTarget problem s (problem.vertexWeights cand.vertex) cand.vertex
        source with
    | none => exact hsk
    | some target =>
      obtain ⟨hne, hft⟩ := of_bestTarget hb
      obtain ⟨next, hn, hin, -, hld⟩ := apply_spec hrange hs
        (not_not.mp hl) (hf cand mem_cons_self) hne.symm
      dsimp only
      rw [hn]
      have hi : Improves problem s next :=
        improves_of_fits hrange hs hin (not_not.mp hl) hne (by simpa using hcn)
          hft hld
      refine directLoop_sound hrange source hin hr (.inr ⟨rfl, ?_⟩)
      rcases hch with ⟨-, rfl⟩ | ⟨-, hbf⟩
      · exact hi
      · exact hbf.trans hi

theorem direct_sound (hrange : problem.LoadsInRange) (hs : Indexed problem s)
    (source : Fin n.parts) :
    Sound problem s (direct problem s source) := by
  obtain ⟨groups, hg⟩ := exists_mapM_eq_ok
    fun entry (_ : entry ∈ s.movableGroups source) =>
      (⟨_, (exists_directGroup source (overload problem s source) entry).choose_spec.1⟩ :
        ∃ candidates, directGroup problem s source (overload problem s source) entry =
          .ok candidates)
  have hd : direct problem s source =
      directLoop problem source (sortedBy Direct.key groups.flatten) s false := by
    unfold direct
    rw [hg]
    rfl
  rw [hd]
  refine directLoop_sound hrange source hs (fun c hm => ?_) (.inl ⟨rfl, rfl⟩)
  have hfl := (sortedBy_perm _ _).mem_iff.mp hm
  obtain ⟨candidates, hc, hin⟩ := mem_flatten.mp hfl
  obtain ⟨entry, he, heq⟩ := exists_of_mem_mapM hg hc
  obtain ⟨found, hf, hv⟩ :=
    @exists_directGroup n problem s source (overload problem s source) entry
  obtain rfl : found = candidates := Except.ok.inj (hf.symm.trans heq)
  exact (hs.of_mem_group he (hv c hin)).2.1

/-- What is true of a pair that may be chosen. -/
structure GoodPair (problem : Problem n)
    (s : State n) (source : Fin n.parts)
    (pair : Pair n) : Prop where
  vertex : s.labels pair.vertex = source ∧ problem.fixed pair.vertex = none
  blocker : s.labels pair.blocker = pair.target ∧ problem.fixed pair.blocker = none
  contributes : contributes (overload problem s source) (problem.vertexWeights pair.vertex) = true
  target_ne : pair.target ≠ source
  destination_ne : pair.destination ≠ pair.target
  frees : ∀ dimension, int64 (s.loads pair.target dimension +
      (problem.vertexWeights pair.vertex).amount dimension -
        problem.allowed pair.target dimension) ≤
      (problem.vertexWeights pair.blocker).amount dimension
  room : ∀ dimension, int64 ((if pair.destination = source then
        s.loads source dimension - (problem.vertexWeights pair.vertex).amount dimension
      else s.loads pair.destination dimension) +
        (problem.vertexWeights pair.blocker).amount dimension) ≤
      problem.allowed pair.destination dimension

variable {pair : Pair n}

theorem of_pairFor {source target destination : Fin n.parts} {relief : ℚ}
    {weights blockerWeights : Weights n} {vertex blocker : Fin n.vertices}
    (h : pairFor problem s source relief weights vertex target blockerWeights blocker destination =
      some pair) : pair.vertex = vertex ∧ pair.blocker = blocker ∧ pair.target = target ∧
      pair.destination = destination ∧ ∀ dimension,
        int64 ((if destination = source then s.loads source dimension - weights.amount dimension
          else s.loads destination dimension) + blockerWeights.amount dimension) ≤
        problem.allowed destination dimension := by
  unfold pairFor at h
  dsimp only at h
  simp only [ite_none_left_eq_some] at h
  obtain ⟨hr, -, h⟩ := h
  cases h
  refine ⟨rfl, rfl, rfl, rfl, fun dimension => ?_⟩
  have ha : ∀ d, int64 ((if destination = source then without (s.loads source) weights
      else s.loads destination) d + blockerWeights.amount d) ≤ problem.allowed destination d := by
    simpa using hr
  refine le_of_eq_of_le ?_ (ha dimension)
  split_ifs
  · exact MachineInt.int64_add_int64.symm
  · rfl

variable {entry : Weights n × Group n}

theorem of_mem_pairsTo (hs : Indexed problem s) (he : entry ∈ s.movableGroups source)
    (hc : contributes (overload problem s source) entry.1 = true) (hne : target ≠ source)
    (h : pair ∈ pairsTo problem s source entry target) : GoodPair problem s source pair := by
  unfold pairsTo at h
  dsimp only at h
  split_ifs at h with hft
  · exact absurd h not_mem_nil
  · obtain ⟨blockers, hb, h⟩ := mem_flatMap.mp h
    obtain ⟨hb, hf⟩ := mem_filter.mp hb
    obtain ⟨blocker, hbc, h⟩ := mem_flatMap.mp h
    obtain ⟨destination, hd, h⟩ := mem_filterMap.mp h
    obtain ⟨hv, rfl, rfl, rfl, hr⟩ := of_pairFor h
    have hsl := hs.of_mem_group he
      (selectVertex_mem (fun c => edgeDelta problem s c source pair.target) entry.2)
    rw [← hv] at hsl
    have hin := hs.of_mem_group hb hbc
    refine ⟨⟨hsl.1, hsl.2.1⟩, ⟨hin.1, hin.2.1⟩, ?_, hne, ?_, fun dimension => ?_,
      fun dimension => ?_⟩
    · rw [hsl.2.2]
      exact hc
    · simpa using (mem_filter.mp hd).2
    · have hdf := of_decide_eq_true (all_eq_true.mp hf dimension (mem_finRange dimension))
      rw [hsl.2.2, hin.2.2]
      omega
    · rw [hsl.2.2, hin.2.2]
      exact hr dimension

/-- **A vertex and the one that makes room for it.** The target and the destination end within what
they are allowed, and the source gets less. -/
theorem GoodPair.improves (hrange : problem.LoadsInRange) (hs : Indexed problem s)
    {source : Fin n.parts} (h : GoodPair problem s source pair) {freed : State n}
    (hfr : Indexed problem freed) (hlb : freed.labels pair.vertex = source)
    (hmv : freed.loads = moveLoads s.loads pair.target pair.destination
      (problem.vertexWeights pair.blocker).amount)
    (hs' : Indexed problem s') (hld : s'.loads = moveLoads freed.loads source pair.target
      (problem.vertexWeights pair.vertex).amount) : Improves problem s s' := by
  have hvl : ∀ p d, s'.loads p d = s.loads p d
      - (if p = pair.target then (problem.vertexWeights pair.blocker).amount d else 0)
      + (if p = pair.destination then (problem.vertexWeights pair.blocker).amount d else 0)
      - (if p = source then (problem.vertexWeights pair.vertex).amount d else 0)
      + (if p = pair.target then (problem.vertexWeights pair.vertex).amount d else 0) := by
    intro p d
    rw [hld, moveLoads_eq hrange hfr hlb, hmv]
    simp only [moveLoads_eq hrange hs h.blocker.1]
    rfl
  have htr := h.target_ne
  have hds := h.destination_ne
  -- the source gives more than it takes, or ends within what it is allowed
  have hsr : ∀ d, s'.loads source d ≤ problem.allowed source d ∨ s'.loads source d =
      s.loads source d - (problem.vertexWeights pair.vertex).amount d := by
    intro d
    have hrm := h.room d
    have hin := hs'.loads_range hrange source d
    rw [hvl, if_neg htr.symm, if_pos rfl, if_neg htr.symm] at hin ⊢
    by_cases hbc : pair.destination = source
    · rw [if_pos hbc.symm] at hin ⊢
      rw [if_pos hbc, hbc, int64_eq (by omega) (by omega)] at hrm
      exact .inl (by omega)
    · rw [if_neg fun heq => hbc heq.symm]
      exact .inr (by omega)
  obtain ⟨dimension, hov, hps⟩ := contributes_iff.mp h.contributes
  have hov := (overload_pos_iff hrange hs).mp hov
  refine improves_of hrange hs hs' (fun p d => ?_) hov ?_
  · have hnn := problem.weights_nonneg pair.vertex d
    by_cases hp : p = source
    · rw [hp]
      rcases hsr d with hle | heq
      · exact le_max_of_le_left hle
      · rw [heq]
        exact le_max_of_le_right (sub_le_self _ hnn)
    by_cases ht : p = pair.target
    · have hfs := h.frees d
      have hlo := hs.loads_range hrange pair.target d
      have had := hs.loads_add_lt hrange (h.vertex.1.trans_ne htr.symm) d
      have hallowed := problem.allowed_nonneg pair.target d
      have hlm := problem.allowed_lt pair.target d
      rw [int64_eq (by omega) (by omega)] at hfs
      rw [hvl, ht, if_pos rfl, if_neg hds.symm, if_neg htr, if_pos rfl]
      exact le_max_of_le_left (by omega)
    by_cases hd : p = pair.destination
    · have hrm := h.room d
      have hin := hs'.loads_range hrange p d
      rw [hvl, if_neg ht, if_pos hd, if_neg hp, if_neg ht, hd] at hin ⊢
      rw [if_neg (hd ▸ hp), int64_eq (by omega) (by omega)] at hrm
      exact le_max_of_le_left (by omega)
    · rw [hvl, if_neg ht, if_neg hd, if_neg hp, if_neg ht]
      exact le_max_of_le_right (by omega)
  · rcases hsr dimension with hle | heq
    · exact hle.trans_lt hov
    · rw [heq]
      exact sub_lt_self _ hps

theorem paired_sound (hrange : problem.LoadsInRange) (hs : Indexed problem s)
    (source : Fin n.parts) :
    Sound problem s (paired problem s source) := by
  unfold paired
  dsimp only
  split
  · exact Sound.none
  · next best hb =>
    have hm := argmin_mem (mem_def.mpr hb)
    obtain ⟨entry, he, hm⟩ := mem_flatMap.mp hm
    obtain ⟨he, hc⟩ := mem_filter.mp he
    obtain ⟨target, ht, hm⟩ := mem_flatMap.mp hm
    have hg := of_mem_pairsTo hs he hc
      (by simpa using (mem_filter.mp ht).2) hm
    obtain ⟨freed, hf, hin, hll, hl⟩ :=
      apply_spec hrange hs hg.blocker.1 hg.blocker.2 hg.destination_ne.symm
    -- the vertex is not the blocker: they are in different parts
    have ho : best.vertex ≠ best.blocker := by
      intro heq
      have hsm := hg.vertex.1
      rw [heq, hg.blocker.1] at hsm
      exact hg.target_ne hsm
    have hlb : freed.labels best.vertex = source := by
      rw [hll, update_of_ne ho]
      exact hg.vertex.1
    obtain ⟨next, hn, hin', -, hl'⟩ :=
      apply_spec hrange hin hlb hg.vertex.2 hg.target_ne.symm
    rw [hf]
    show Sound problem s (apply problem freed best.vertex source best.target >>=
      fun next => pure (some next))
    rw [hn]
    exact Sound.some hin'
      (hg.improves hrange hs hin hlb hl hin' hl')

theorem count_violationKey {loads limits : Fin n.parts → Fin n.dimensions → ℤ}
    (hld : ∀ part dimension, 0 ≤ loads part dimension ∧ loads part dimension < 2 ^ 63)
    (hl : ∀ part dimension, 0 ≤ limits part dimension ∧ limits part dimension < 2 ^ 63) :
    (violationKey problem loads limits).count = 0 ↔
      ∀ part dimension, loads part dimension ≤ limits part dimension := by
  have he : ∀ part dimension, int64 (loads part dimension - limits part dimension) =
      loads part dimension - limits part dimension := by
    intro part dimension
    have hlo := hld part dimension
    have hlm := hl part dimension
    exact int64_eq (by omega) (by omega)
  show List.length (List.flatMap _ _) = 0 ↔ _
  rw [length_eq_zero_iff, flatMap_eq_nil_iff]
  simp [exceededOf, he]

theorem limitsOf_range (hrange : problem.LoadsInRange) (hs : Indexed problem s)
    (source : Fin n.parts) (weights : Weights n) (part : Fin n.parts)
    (dimension : Fin n.dimensions) : 0 ≤ limitsOf problem s source weights part dimension ∧
      limitsOf problem s source weights part dimension < 2 ^ 63 := by
  have hld := hs.loads_range hrange part dimension
  have hl := problem.allowed_lt source dimension
  have hl' := problem.allowed_lt part dimension
  rw [limitsOf]
  split_ifs
  · exact ⟨le_max_of_le_left (problem.allowed_nonneg _ _), max_lt hl int64_lt⟩
  · exact ⟨le_max_of_le_left (problem.allowed_nonneg _ _), max_lt hl' hld.2⟩

/-- **A chain that keeps to its limits** improves the state: the limits are the former loads or
what is allowed, but for the source, which has to get rid of the weights of the root. -/
theorem improves_of_limits (hrange : problem.LoadsInRange) (hs : Indexed problem s)
    (hs' : Indexed problem s') (source : Fin n.parts) (root : Fin n.vertices)
    (hc : contributes (overload problem s source) (problem.vertexWeights root) = true)
    (h : ∀ part dimension, s'.loads part dimension ≤
      limitsOf problem s source (problem.vertexWeights root) part dimension) :
    Improves problem s s' := by
  obtain ⟨dimension, ho, hps⟩ := contributes_iff.mp hc
  have ho := (overload_pos_iff hrange hs).mp ho
  have hl : ∀ d, int64 (s.loads source d - (problem.vertexWeights root).amount d) =
      s.loads source d - (problem.vertexWeights root).amount d := by
    intro d
    have hld := hs.loads_range hrange source d
    have hn := problem.weights_nonneg root d
    have hlt := weight_lt hrange root d
    exact int64_eq (by omega) (by omega)
  refine improves_of hrange hs hs' (fun p d => (h p d).trans ?_) ho
    ((h source dimension).trans_lt ?_)
  · have hn := problem.weights_nonneg root d
    unfold limitsOf
    split_ifs with hp
    · rw [hp, hl]
      omega
    · exact le_rfl
  · rw [limitsOf, if_pos rfl, hl]
    omega

theorem replayStep_plan (hs : Indexed problem s) {step : ChainTemplateMove n}
    (hne : step.source ≠ step.target) {replay next : Replay n}
    (hp : Plan problem s replay.selected replay.sequence replay.loads)
    (h : replayStep s replay step = some next) :
    Plan problem s next.selected next.sequence next.loads ∧
      ∃ vertex, problem.vertexWeights vertex = step.weights := by
  unfold replayStep at h
  dsimp only at h
  split_ifs at h with hc
  cases h
  have hvr : ∀ vertex ∈ ((verticesAt step.weights (s.movableGroups step.source)).filter
      fun vertex => vertex ∉ replay.selected).take step.count,
      vertex ∈ verticesAt step.weights (s.movableGroups step.source) ∧
        vertex ∉ replay.selected := by
    intro vertex hv
    simpa using mem_filter.mp ((take_sublist _ _).subset hv)
  have hsm : ((verticesAt step.weights (s.movableGroups step.source)).filter
      fun vertex => vertex ∉ replay.selected).take step.count ≠ [] := by
    intro hn
    rw [hn] at hc
    exact absurd hc step.count_pos.ne
  refine ⟨?_, ?_⟩
  · have hg := hp.extend hs step.weights (fun vertex => List.mem_append)
      (((hs.nodup step.source step.weights).filter _).sublist (take_sublist _ _)) hsm hne
      hvr
    rw [hc] at hg
    exact hg
  · obtain ⟨vertex, rest, hcn⟩ := exists_cons_of_ne_nil hsm
    have hv := (hvr vertex (hcn ▸ mem_cons_self)).1
    exact ⟨vertex, ((hs.mem_iff _ _ _).mp hv).2.2⟩

theorem replay_plan (hs : Indexed problem s) : ∀ {steps : List (ChainTemplateMove n)}
      {replay next : Replay n}, (∀ step ∈ steps, step.source ≠ step.target) →
      Plan problem s replay.selected replay.sequence replay.loads →
      steps.foldlM (replayStep s) replay = some next →
      Plan problem s next.selected next.sequence next.loads ∧
        ∀ step ∈ steps, ∃ vertex, problem.vertexWeights vertex = step.weights
  | [], replay, next, _, hp, h => by
    cases h
    exact ⟨hp, fun _ hst => absurd hst not_mem_nil⟩
  | step :: steps, replay, next, hne, hp, h => by
    rw [foldlM_cons] at h
    obtain ⟨mid, hm, h⟩ := bind_eq_some_iff.mp h
    obtain ⟨hp', hv⟩ := replayStep_plan hs (hne step mem_cons_self) hp hm
    obtain ⟨hf, hr⟩ := replay_plan hs (fun x hx => hne x (mem_cons_of_mem step hx)) hp' h
    refine ⟨hf, fun x hx => ?_⟩
    rcases mem_cons.mp hx with rfl | hx
    · exact hv
    · exact hr x hx

theorem replayChainTemplate_sound (hrange : problem.LoadsInRange) (hs : Indexed problem s)
    (source : Fin n.parts) :
    Sound problem s (replayChainTemplate problem s source) := by
  unfold replayChainTemplate
  split
  · exact Sound.none
  · next front rest ht =>
    split
    · exact Sound.none
    split
    · exact Sound.none
    next replay hrp =>
    split
    · exact Sound.none
    next hc =>
    split
    · exact Sound.none
    next hcn =>
    obtain ⟨hp, hw⟩ := replay_plan hs (ht ▸ hs.templates source) Plan.nil hrp
    obtain ⟨root, hr⟩ := hw front mem_cons_self
    obtain ⟨next, hn, hi, hl⟩ := hp.apply hrange hs
    rw [hn]
    refine Sound.some hi (improves_of_limits hrange hs hi source root ?_ ?_)
    · rw [hr]
      simpa using hc
    · rw [hr]
      have hr' := hi.loads_range hrange
      rw [hl] at hr' ⊢
      exact (count_violationKey hr' (limitsOf_range hrange hs source _)).mp (not_not.mp hcn)

/-! ## the search -/

structure Planned (problem : Problem n)
    (s : State n)
    (limits : Fin n.parts → Fin n.dimensions → ℤ)
    (state : ChainState n) : Prop where
  plan : Plan problem s state.moved state.sequence state.loads
  violation_eq : state.violation = violationKey problem state.loads limits

def Found (problem : Problem n)
    (s : State n)
    (limits : Fin n.parts → Fin n.dimensions → ℤ) (sequence : List (Move n)) :
    Prop :=
  ∃ moved loads, Plan problem s moved sequence loads ∧
    ∀ part dimension, loads part dimension ≤ limits part dimension

variable {limits : Fin n.parts → Fin n.dimensions → ℤ} {state : ChainState n}

/-- A planned chain can be made, so its loads are in range. -/
theorem Planned.found (hrange : problem.LoadsInRange) (hs : Indexed problem s)
    (hl : ∀ part dimension, 0 ≤ limits part dimension ∧ limits part dimension < 2 ^ 63)
    (h : Planned problem s limits state) (hc : state.violation.count = 0) :
    Found problem s limits state.sequence := by
  obtain ⟨s', -, hi, hld⟩ := h.plan.apply hrange hs
  have hr' := hi.loads_range hrange
  rw [hld] at hr'
  rw [h.violation_eq] at hc
  exact ⟨state.moved, state.loads, h.plan, (count_violationKey hr' hl).mp hc⟩

variable {pivot : Fin n.dimensions}

theorem of_mem_batches {moved : List (Fin n.vertices)} {deficits : Fin n.dimensions → ℤ}
    {vertices : List (Fin n.vertices)} (hn : entry.2.vertices.Nodup)
    (h : vertices ∈ batches moved deficits pivot entry) : vertices.Nodup ∧
      ∀ vertex ∈ vertices, vertex ∈ entry.2.vertices ∧ vertex ∉ moved := by
  have hsm : ∀ {available : List (Fin n.vertices)} {size : ℕ},
      available.Sublist (entry.2.vertices.filter fun vertex => vertex ∉ moved) →
      (available.take size).Nodup ∧
        ∀ vertex ∈ available.take size, vertex ∈ entry.2.vertices ∧ vertex ∉ moved := by
    intro available size ha
    have hsb := (take_sublist size available).trans ha
    exact ⟨(hn.filter _).sublist hsb, fun vertex hv => by
      simpa using mem_filter.mp (hsb.subset hv)⟩
  unfold batches at h
  dsimp only at h
  split_ifs at h
  · exact absurd h not_mem_nil
  · exact absurd h not_mem_nil
  · obtain ⟨size, -, rfl⟩ := mem_map.mp h
    exact hsm (.refl _)
  · exact absurd h not_mem_nil
  · obtain ⟨size, -, rfl⟩ := mem_map.mp h
    exact hsm (take_sublist _ _)

theorem Planned.extend (hs : Indexed problem s) {blocked : Fin n.parts} {transition : Transition n}
    (h : Planned problem s limits state)
    (hm : transition ∈ transitions problem s limits state blocked pivot) :
    Planned problem s limits (extend state blocked transition) := by
  have hin := (sortedBy_perm _ _).mem_iff.mp ((take_sublist _ _).subset hm)
  obtain ⟨entry, he, hin⟩ := mem_flatMap.mp hin
  obtain ⟨vertices, hvr, hin⟩ := mem_flatMap.mp hin
  unfold transitionsOf at hin
  dsimp only at hin
  split_ifs at hin with hr
  · exact absurd hin not_mem_nil
  · obtain ⟨target, ht, rfl⟩ := mem_map.mp hin
    obtain ⟨hn, hg⟩ := of_mem_batches (hs.nodup_group he) hvr
    have hne : vertices ≠ [] := by
      rintro rfl
      refine hr (relief_nonpos fun dimension hb => ?_)
      simp [MachineInt.int64] at hb
    refine ⟨?_, rfl⟩
    refine h.plan.extend hs entry.1 (fun vertex => ?_) hn hne ?_ fun vertex hv => ?_
    · show vertex ∈ sorted (state.moved ++ vertices) ↔ _
      rw [mem_sorted, List.mem_append]
    · have := (mem_filter.mp ht).2
      exact (by simpa using this : target ≠ blocked).symm
    · refine ⟨?_, (hg vertex hv).2⟩
      rw [verticesAt_of_mem (hs.ascending blocked) he]
      exact (hg vertex hv).1

theorem extendChain_planned (hs : Indexed problem s) (h : Planned problem s limits state)
    {next next' : List (ChainState n)}
    (hn : ∀ candidate ∈ next, Planned problem s limits candidate)
    (hok : extendChain problem s limits next state = .ok next') :
    ∀ candidate ∈ next', Planned problem s limits candidate := by
  unfold extendChain at hok
  split at hok
  · cases hok
  · next blocked pivot _ =>
    refine foldlM_invariant
      (fun next => ∀ candidate ∈ next, Planned problem s limits candidate) ?_ hn hok
    intro transition htr t t' ht hst
    dsimp only at hst
    split_ifs at hst
    cases hst
    intro candidate hc
    rcases List.mem_append.mp hc with hc | hc
    · exact ht candidate hc
    · rw [mem_singleton.mp hc]
      exact h.extend hs htr

theorem of_foldlM_eq_error {α σ ε : Type} {f : σ → α → Except ε σ} {e : ε} (P : σ → Prop) :
    ∀ {l : List α} {t : σ}, (∀ a ∈ l, ∀ t t', P t → f t a = .ok t' → P t') → P t →
      l.foldlM f t = .error e → ∃ a ∈ l, ∃ t, P t ∧ f t a = .error e
  | [], t, _, _, h => by cases h
  | a :: l, t, hst, ht, h => by
    rw [foldlM_cons] at h
    rcases bind_eq_error.mp h with h | ⟨t', hok, h⟩
    · exact ⟨a, mem_cons_self, t, ht, h⟩
    · obtain ⟨b, hb, hr⟩ := of_foldlM_eq_error P
        (fun x hx => hst x (mem_cons_of_mem a hx)) (hst a mem_cons_self t t' ht hok) h
      exact ⟨b, mem_cons_of_mem a hb, hr⟩

variable {sequence : List (Move n)}

section

variable (hrange : problem.LoadsInRange) (hs : Indexed problem s)
include hrange hs

theorem extendChain_found
    (hl : ∀ part dimension, 0 ≤ limits part dimension ∧ limits part dimension < 2 ^ 63)
    (h : Planned problem s limits state) {next : List (ChainState n)}
    (he : extendChain problem s limits next state = .error (some sequence)) :
    Found problem s limits sequence := by
  unfold extendChain at he
  split at he
  · cases he
  · next blocked pivot _ =>
    obtain ⟨transition, ht, t, -, hst⟩ :=
      of_foldlM_eq_error (fun _ => True) (fun _ _ _ _ _ _ => trivial) trivial he
    dsimp only at hst
    split_ifs at hst with hc
    obtain rfl := some.inj (Except.error.inj hst)
    exact (h.extend hs ht).found hrange hs hl hc

theorem searchFrom_found
    (hl : ∀ part dimension, 0 ≤ limits part dimension ∧ limits part dimension < 2 ^ 63) :
      ∀ {depth : ℕ} {beam : List (ChainState n)},
      (∀ state ∈ beam, Planned problem s limits state) →
      searchFrom problem s limits depth beam = .error (some sequence) →
      Found problem s limits sequence
  | 0, beam, _, h => by cases h
  | depth + 1, beam, hb, h => by
    have hsp : ∀ state ∈ beam, ∀ t t', (∀ candidate ∈ t, Planned problem s limits candidate) →
        extendChain problem s limits t state = .ok t' →
        ∀ candidate ∈ t', Planned problem s limits candidate :=
      fun state hst t t' ht hok => extendChain_planned hs (hb state hst) ht hok
    have hnl : ∀ candidate ∈ ([] : List (ChainState n)),
        Planned problem s limits candidate := fun _ hm => absurd hm not_mem_nil
    rw [searchFrom] at h
    rcases bind_eq_error.mp h with h | ⟨next, hn, h⟩
    · obtain ⟨state, hst, t, -, he⟩ := of_foldlM_eq_error
        (fun next => ∀ candidate ∈ next, Planned problem s limits candidate) hsp hnl h
      exact extendChain_found hrange hs hl (hb state hst) he
    · have hp := foldlM_invariant
        (fun next => ∀ candidate ∈ next, Planned problem s limits candidate) hsp hnl hn
      dsimp only at h
      split_ifs at h
      exact searchFrom_found hl (fun state hst => hp state
        ((sortedBy_perm _ _).mem_iff.mp ((take_sublist _ _).subset hst))) h

omit hrange in
theorem of_mem_roots {source : Fin n.parts} {preferredOnly : Bool} {root : Root n}
    (h : root ∈ roots problem s source preferredOnly) :
    s.labels root.vertex = source ∧ problem.fixed root.vertex = none ∧ root.target ≠ source ∧
      contributes (overload problem s source) (problem.vertexWeights root.vertex) = true := by
  have hin := (mem_filter.mp ((take_sublist _ _).subset h)).1
  obtain ⟨entry, he, hin⟩ := mem_flatMap.mp ((sortedBy_perm _ _).mem_iff.mp hin)
  unfold rootsOf at hin
  dsimp only at hin
  split_ifs at hin with hr hsc
  · exact absurd hin not_mem_nil
  · exact absurd hin not_mem_nil
  · obtain ⟨target, ht, rfl⟩ := mem_map.mp hin
    obtain ⟨hl, hf, hw⟩ := hs.of_mem_group he
      (selectVertex_mem (fun vertex => edgeDelta problem s vertex source target) entry.2)
    refine ⟨hl, hf, by simpa using (mem_filter.mp ht).2, ?_⟩
    show contributes _ (problem.vertexWeights (selectVertex _ entry.2)) = true
    rw [hw]
    exact contributes_of_relief (not_le.mp hr)

theorem searchRoot_found {source : Fin n.parts} {root found : Root n}
    (hl : s.labels root.vertex = source) (hf : problem.fixed root.vertex = none)
    (hne : root.target ≠ source)
    (h : searchRoot problem s source root = .error (some (found, sequence))) :
    found = root ∧ Found problem s
      (limitsOf problem s source (problem.vertexWeights root.vertex)) sequence := by
  have hi : Planned problem s (limitsOf problem s source (problem.vertexWeights root.vertex))
      (rootChain problem s source root) := by
    refine ⟨?_, rfl⟩
    have hp : Plan problem s [root.vertex] ([] ++ [⟨[root.vertex], source, root.target⟩])
        (moveLoads s.loads source root.target fun dimension =>
          int64 ((problem.vertexWeights root.vertex).amount dimension *
            ([root.vertex].length : ℤ))) := by
      refine Plan.nil.extend hs (problem.vertexWeights root.vertex) (fun vertex => by simp)
        (nodup_singleton _) (cons_ne_nil _ _) hne.symm fun vertex hv => ?_
      rw [mem_singleton.mp hv]
      exact ⟨(hs.mem_iff _ _ _).mpr ⟨hl, hf, rfl⟩, not_mem_nil⟩
    rw [moveLoads_int64] at hp
    simpa [rootChain] using hp
  unfold searchRoot at h
  dsimp only at h
  split_ifs at h with hc
  · obtain ⟨rfl, rfl⟩ := Prod.mk.inj (some.inj (Except.error.inj h))
    exact ⟨rfl, hi.found hrange hs (limitsOf_range hrange hs source _) hc⟩
  · cases hsr : searchFrom problem s
        (limitsOf problem s source (problem.vertexWeights root.vertex))
        (maxChainMoves n - 1) [rootChain problem s source root] with
    | ok _ =>
      rw [hsr] at h
      cases h
    | error stop =>
      rw [hsr] at h
      have hsp := Except.error.inj h
      obtain ⟨chain, rfl, hpr⟩ := map_eq_some_iff.mp hsp
      cases hpr
      refine ⟨rfl, searchFrom_found hrange hs (limitsOf_range hrange hs source _)
        (fun state hst => ?_) hsr⟩
      rw [mem_singleton.mp hst]
      exact hi

theorem makeChain_spec (source : Fin n.parts) (root : Root n)
    (h : Found problem s limits sequence) :
    ∃ s', makeChain problem s source root sequence = .ok s' ∧ Indexed problem s' ∧
      ∀ part dimension, s'.loads part dimension ≤ limits part dimension := by
  obtain ⟨moved, loads, hp, hl⟩ := h
  obtain ⟨template, ht⟩ := exists_mapM_eq_ok
    (f := templateOf problem) (l := sequence) fun move hm => by
      obtain ⟨first, rest, hc⟩ := exists_cons_of_ne_nil (hp.legal move hm).vertices_ne
      unfold templateOf
      split
      · next hn => exact absurd (hc.symm.trans hn) (cons_ne_nil _ _)
      · exact ⟨_, rfl⟩
  have htp : ∀ step ∈ template, step.source ≠ step.target := by
    intro step hst
    obtain ⟨move, hm, ho⟩ := exists_of_mem_mapM ht hst
    unfold templateOf at ho
    split at ho
    · cases ho
    · rw [← Except.ok.inj ho]
      exact (hp.legal move hm).apart
  have hr : Indexed problem (remember problem s source root template) := by
    refine ⟨hs.ascending, hs.nodup, hs.mem_iff, hs.loads_eq, hs.fixed_eq, fun part step hst => ?_⟩
    replace hst : step ∈ update s.preferredChainTemplates source template part := hst
    by_cases hpr : part = source
    · rw [hpr, update_self] at hst
      exact htp step hst
    · rw [update_of_ne hpr] at hst
      exact hs.templates part step hst
  have hp' : Plan problem (remember problem s source root template) moved sequence loads :=
    ⟨hp.moved_iff, hp.nodup, fun move hm =>
      ⟨(hp.legal move hm).vertices_ne, (hp.legal move hm).apart,
        (hp.legal move hm).movable⟩, hp.loads_eq⟩
  obtain ⟨s', hs', hin, hld⟩ := hp'.apply hrange hr
  exact ⟨s', bind_eq_ok.mpr ⟨template, ht, hs'⟩, hin, hld ▸ hl⟩

theorem ejectionChain_sound (preferredOnly : Bool)
    (source : Fin n.parts) : Sound problem s (ejectionChain problem preferredOnly s source) := by
  unfold ejectionChain
  split
  · exact Sound.none
  · exact Sound.none
  · next root sequence he =>
    obtain ⟨tried, ht, htr⟩ := of_forM_eq_error he
    obtain ⟨hlb, hf, hne, hc⟩ := of_mem_roots hs ht
    obtain ⟨rfl, hfn⟩ := searchRoot_found hrange hs hlb hf hne htr
    obtain ⟨next, hn, hi, hl⟩ := makeChain_spec hrange hs source root hfn
    rw [hn]
    exact Sound.some hi (improves_of_limits hrange hs hi source _ hc hl)

theorem preferredChain_sound (source : Fin n.parts) :
    Sound problem s (preferredChain problem s source) := by
  unfold preferredChain
  split_ifs
  · exact ejectionChain_sound hrange hs true source
  · exact Sound.none

theorem repairs_sound {repair : State n → Fin n.parts → Except String (Option (State n))}
    (h : repair ∈ repairs problem) (source : Fin n.parts) : Sound problem s (repair s source) := by
  simp only [repairs, mem_cons, not_mem_nil, or_false] at h
  rcases h with rfl | rfl | rfl | rfl | rfl
  · exact direct_sound hrange hs source
  · exact replayChainTemplate_sound hrange hs source
  · exact preferredChain_sound hrange hs source
  · exact paired_sound hrange hs source
  · exact ejectionChain_sound hrange hs false source

end

/-! ## runs -/

theorem firstChange_sound {repair : Fin n.parts → Except String (Option (State n))}
    (h : ∀ source, Sound problem s (repair source)) :
    ∀ sources : List (Fin n.parts), Sound problem s (firstChange repair sources)
  | [] => Sound.none
  | source :: sources => by
    obtain ⟨change, hc, hsp⟩ := h source
    rw [firstChange, hc]
    cases change with
    | none => exact firstChange_sound h sources
    | some next => exact ⟨some next, rfl, hsp⟩

def noRepair : String := "no deterministic direct, paired, or bounded-chain balance repair"

theorem firstRepair_spec (sources : List (Fin n.parts)) : ∀ {kinds : List (State n → Fin n.parts →
        Except String (Option (State n)))},
      (∀ repair ∈ kinds, ∀ source, Sound problem s (repair s source)) →
      firstRepair s sources kinds = .error noRepair ∨
        ∃ s', firstRepair s sources kinds = .ok s' ∧ Indexed problem s' ∧ Improves problem s s'
  | [], _ => .inl rfl
  | repair :: kinds, h => by
    obtain ⟨change, hc, hsp⟩ := firstChange_sound (h repair mem_cons_self) sources
    rw [firstRepair, hc]
    cases change with
    | none => exact firstRepair_spec sources fun r hr => h r (mem_cons_of_mem repair hr)
    | some next => exact .inr ⟨next, rfl, hsp next rfl⟩

theorem le_foldl_max_zero {l : List ℚ} {a : ℚ} (h : l.foldl max a ≤ 0) : ∀ b ∈ l, b ≤ 0 := by
  have hf : ∀ (l : List ℚ) (a : ℚ), a ≤ l.foldl max a ∧ ∀ b ∈ l, b ≤ l.foldl max a := by
    intro l
    induction l with
    | nil => exact fun a => ⟨le_rfl, fun _ hb => absurd hb not_mem_nil⟩
    | cons x l ih =>
      intro a
      obtain ⟨hst, ha⟩ := ih (max a x)
      refine ⟨(le_max_left a x).trans hst, fun b hb => ?_⟩
      rcases mem_cons.mp hb with rfl | hb
      · exact (le_max_right a b).trans hst
      · exact ha b hb
  exact fun b hb => ((hf l a).2 b hb).trans h

theorem within_of_sources (hrange : problem.LoadsInRange) (hs : Indexed problem s)
    (h : overloadedSources problem s = []) (part : Fin n.parts)
    (dimension : Fin n.dimensions) : s.loads part dimension ≤ problem.allowed part dimension := by
  have hp := sortedBy_perm (fun part => lex (-peakOverload problem s part) part)
    ((finRange n.parts).filter fun part => 0 < peakOverload problem s part)
  have hn : ((finRange n.parts).filter fun part => 0 < peakOverload problem s part) = [] :=
    Perm.nil_eq (h ▸ hp) |>.symm
  have hpk := filter_eq_nil_iff.mp hn part (mem_finRange part)
  have hle : peakOverload problem s part ≤ 0 := by simpa using hpk
  have hsh := le_foldl_max_zero hle _ (mem_map.mpr ⟨dimension, mem_finRange _, rfl⟩)
  by_contra ho
  have hl := hs.loads_range hrange part dimension
  have hallowed := problem.allowed_nonneg part dimension
  have hps : 0 < share problem part dimension
      (int64 (s.loads part dimension - problem.allowed part dimension)) := by
    rw [int64_eq (by omega) (by omega)]
    exact share_pos_iff.mpr (by omega)
  exact absurd hps (not_lt.mpr hsh)

def Step (problem : Problem n)
    (s s' : State n) : Prop :=
  turn problem s = .ok (some s')

/-- The states of a run from `s`. -/
def Reaches (problem : Problem n) :
    State n →
    State n → Prop :=
  Relation.ReflTransGen (Step problem)

section

variable (hrange : problem.LoadsInRange)

include hrange

theorem turn_spec (hs : Indexed problem s) : (turn problem s = .ok none ∧
        ∀ part dimension, s.loads part dimension ≤ problem.allowed part dimension) ∨
      turn problem s = .error noRepair ∨
        ∃ s', turn problem s = .ok (some s') ∧ Indexed problem s' ∧ Improves problem s s' := by
  unfold turn
  split_ifs with hsr
  · exact .inl ⟨rfl, within_of_sources hrange hs hsr⟩
  · rcases firstRepair_spec (overloadedSources problem s)
      (fun repair hr source => repairs_sound hrange hs hr source) with
      he | ⟨s', hs', hsp⟩
    · rw [he]
      exact .inr (.inl rfl)
    · rw [hs']
      exact .inr (.inr ⟨s', rfl, hsp⟩)

theorem Step.spec (hs : Indexed problem s) (h : Step problem s s') :
    Indexed problem s' ∧ Improves problem s s' := by
  unfold Step at h
  rcases turn_spec hrange hs with ⟨hn, -⟩ | he | ⟨next, hnx, hsp⟩
  · rw [hn] at h
    cases h
  · rw [he] at h
    cases h
  · obtain rfl : s' = next := some.inj (Except.ok.inj (h.symm.trans hnx))
    exact hsp

theorem Reaches.indexed (hs : Indexed problem s) (h : Reaches problem s s') :
    Indexed problem s' := by
  induction h with
  | refl => exact hs
  | tail _ hst ih => exact (hst.spec hrange ih).1

theorem legalize_spec : ∀ {fuel : ℕ} {s : State n}, Indexed problem s →
      totalOverload problem s < fuel → legalize problem fuel s = some (.error noRepair) ∨
        ∃ final, legalize problem fuel s = some (.ok final) ∧ Reaches problem s final ∧
          ∀ part dimension, final.loads part dimension ≤ problem.allowed part dimension
  | 0, s, _, hf => absurd hf (not_lt.mpr totalOverload_nonneg)
  | fuel + 1, s, hs, hf => by
    rw [legalize]
    rcases turn_spec hrange hs with ⟨hnn, hw⟩ | her | ⟨next, hn, hin, hi⟩
    · rw [hnn]
      exact .inr ⟨s, rfl, .refl, hw⟩
    · rw [her]
      exact .inl rfl
    · rw [hn]
      have hl : totalOverload problem next < fuel := by
        have hlt := hi.total_lt
        push_cast at hf
        omega
      rcases legalize_spec hin hl with
        he | ⟨final, hfn, hr, hw⟩
      · exact .inl he
      · exact .inr ⟨final, hfn, .head hn hr, hw⟩

end

/-- **The legalizer ends, and it only ever repairs.** In every state of a run the loads are those of
the labels and the fixed vertices are where they were; no kind of repair fails for any source, and
one that changes something lowers the total overload and raises no overload. The run ends, with the
error that no repair helps or with loads within what is allowed. -/
theorem balanceLegalizer_sound (problem : Problem n) (hrange : problem.LoadsInRange) :
    (∀ s, Reaches problem (initialState problem) s → s.loads = loadsOf problem s.labels ∧
      (∀ vertex part, problem.fixed vertex = some part → s.labels vertex = part) ∧
      ∀ repair ∈ repairs problem, ∀ source, repair s source = .ok none ∨
        ∃ s', repair s source = .ok (some s') ∧ Improves problem s s') ∧
    ∀ fuel : ℕ, totalOverload problem (initialState problem) < fuel →
      legalize problem fuel (initialState problem) =
          some (.error "no deterministic direct, paired, or bounded-chain balance repair") ∨
        ∃ final, legalize problem fuel (initialState problem) = some (.ok final) ∧
          Reaches problem (initialState problem) final ∧
          ∀ part dimension, loadsOf problem final.labels part dimension ≤
            problem.allowed part dimension := by
  have hinitial := indexed_initialState hrange
  refine ⟨fun s hreaches => ?_, fun fuel hfuel => ?_⟩
  · have hs := hreaches.indexed hrange hinitial
    refine ⟨hs.loads_eq, hs.fixed_eq, fun repair hrepair source => ?_⟩
    obtain ⟨change, hchange, hspec⟩ := repairs_sound hrange hs hrepair source
    cases change with
    | none => exact .inl hchange
    | some next => exact .inr ⟨next, hchange, (hspec next rfl).2⟩
  · rcases legalize_spec hrange hinitial hfuel with hend | ⟨final, hfinal, hreaches, hwithin⟩
    · exact .inl hend
    · refine .inr ⟨final, hfinal, hreaches, ?_⟩
      rw [← (hreaches.indexed hrange hinitial).loads_eq]
      exact hwithin

/-- Two free vertices of one weight on the first of two parts. -/
def twoVertices (weight : ℤ) (hweight : 0 ≤ weight) (allowed : Fin 2 → ℤ)
    (hallowed : ∀ part, 0 ≤ allowed part ∧ allowed part < 2 ^ 63) : Problem ⟨2, 1, 2, 1⟩ where
  allowed part _ := allowed part
  vertexWeights _ := ⟨fun _ => weight⟩
  fixed _ := none
  assignment _ := ⟨0, Nat.two_pos⟩
  edges _ := { weight := 1, combinational := false, vertices := List.finRange 2
               two_le := by decide }
  parts_gt := Nat.one_lt_two
  dimensions_pos := Nat.one_pos
  vertices_pos := Nat.two_pos
  edges_pos := Nat.one_pos
  allowed_nonneg part _ := (hallowed part).1
  allowed_lt part _ := (hallowed part).2
  weights_nonneg _ _ := hweight
  fixed_eq _ _ h := by cases h

/-- One of the two vertices has to go to the other part. -/
def crowded : Problem ⟨2, 1, 2, 1⟩ := twoVertices 3 (by decide) ![3, 4] (by decide)

theorem crowded_ends : ∃ final, legalize crowded 4 (initialState crowded) = some (.ok final) ∧
    ∀ part dimension, loadsOf crowded final.labels part dimension ≤
      crowded.allowed part dimension := by
  have hrange : crowded.LoadsInRange := by
    intro dimension
    show ∑ _vertex : Fin 2, (3 : ℤ) < 2 ^ 63
    decide
  have hsm : ((legalize crowded 4 (initialState crowded)).bind Except.toOption).isSome = true := by
    decide +kernel
  rcases (balanceLegalizer_sound crowded hrange).2 4 (by decide +kernel) with
    he | ⟨final, hf, -, hw⟩
  · rw [he] at hsm
    cases hsm
  · exact ⟨final, hf, hw⟩

/-- The weights add up to `2 ^ 63`, one more than the largest load. -/
def wrapped : Problem ⟨2, 1, 2, 1⟩ := twoVertices (2 ^ 62) (by decide) ![0, 0] (by decide)

theorem wrapped_passes : ∃ final, legalize wrapped 1 (initialState wrapped) = some (.ok final) ∧
    ¬∀ part dimension, loadsOf wrapped final.labels part dimension ≤
      wrapped.allowed part dimension := by
  refine ⟨initialState wrapped, ?_, by decide⟩
  have ht : turn wrapped (initialState wrapped) = .ok none := by
    have hn : overloadedSources wrapped (initialState wrapped) = [] := by decide +kernel
    rw [turn, if_pos hn]
  rw [legalize, ht]

end EmuFlow.TritonPart
