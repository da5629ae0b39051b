import EmuFlow.Coarsener.Rounds

/-!
# MFSPart coarsener: margin-mode coarsening

A walk of the coarse graph is a walk of the fine one on which the active merges are free. With it
the end of the repair bounds the distances of the coarse graph; `coarsen_once` ends exactly when
the repair meets no entangled way back.
-/

namespace EmuFlow.Coarsener

open List Option Outcome

section lift

variable {dims : ℕ} {fine : Graph dims}

theorem mem_rebuildNets {n m : ℕ} {nets : List (Net n)} {fineToCoarse : Fin n → Fin m} {net : Net m}
    (h : net ∈ rebuildNets nets fineToCoarse) :
    ∃ fineNet ∈ nets, mapKey fineToCoarse fineNet.toNetKey = some net.toNetKey := by
  let Good (aggregated : List (NetKey m × ℚ)) : Prop :=
    ∀ key ∈ aggregated.map Prod.fst, ∃ fineNet ∈ nets,
      mapKey fineToCoarse fineNet.toNetKey = some key
  have ha : Good (nets.foldl (aggregate fineToCoarse) []) := by
    refine foldlRecOn (motive := Good) nets _ (fun _ h => absurd h not_mem_nil)
      fun aggregated hg fineNet hm => ?_
    rw [aggregate]
    split
    · exact hg
    · next key hk =>
      intro key' hk'
      rcases OrderedMap.mem_keys_add.mp hk' with rfl | ho
      · exact ⟨fineNet, hm, hk⟩
      · exact hg key' ho
  obtain ⟨e, he, rfl⟩ := mem_map.mp h
  exact ha e.1 (mem_map_of_mem he)

theorem joined_of_coarse {level : LevelResult fine} {i j : Fin level.clusters.length}
    (h : Joined level.graph i j) :
    ∃ x y, level.fineToCoarse x = i ∧ level.fineToCoarse y = j ∧ Joined fine x y := by
  have hp : ∀ net ∈ level.graph.nets, ∀ sink ∈ net.sinks, ∃ x y,
      level.fineToCoarse x = net.source ∧ level.fineToCoarse y = sink ∧ Joined fine x y := by
    intro net hnet sink hs
    obtain ⟨fineNet, hf, hk⟩ := mem_rebuildNets hnet
    rw [mapKey] at hk
    split_ifs at hk
    have hn' := some.inj hk
    rw [← hn'] at hs
    obtain ⟨-, hi⟩ := Finset.mem_erase.mp hs
    obtain ⟨y, hy, rfl⟩ := Finset.mem_image.mp hi
    exact ⟨fineNet.source, y, by rw [← hn'], rfl, fineNet, hf, .inl ⟨rfl, hy⟩⟩
  obtain ⟨net, hnet, ⟨rfl, hs⟩ | ⟨rfl, hs⟩⟩ := h
  · exact hp net hnet j hs
  · obtain ⟨x, y, hx, hy, hj⟩ := hp net hnet i hs
    exact ⟨y, x, hy, hx, hj.symm⟩

variable {selected : List (Candidate fine.size)} {active : Fin selected.length → Bool}
  {counters : Counters} {source : Fin fine.size}

theorem costs_of_same_cluster {x y : Fin fine.size} {cost : ℕ}
    (hs : (buildLevel fine selected active counters).fineToCoarse x =
      (buildLevel fine selected active counters).fineToCoarse y)
    (h : Costs (adjacency fine selected.get active) source x cost) :
    Costs (adjacency fine selected.get active) source y cost := by
  by_cases hne : x = y
  · exact hne ▸ h
  · obtain ⟨merge, ha, -, hn⟩ := merge_of_fineToCoarse_eq hs hne
    have hm : Mates selected active merge x y := ⟨ha, hn.imp_right fun h => ⟨h.2, h.1⟩⟩
    have har : ({ target := y, cost := 0, merge := some merge } : Arc fine.size selected.length) ∈
        adjacency fine selected.get active x :=
      mem_adjacency.mpr (.inr ⟨merge, hm, rfl, rfl⟩)
    exact h.step har

theorem costs_of_coarse_walk {i j : Fin (buildLevel fine selected active counters).graph.size}
    (walk : (buildLevel fine selected active counters).graph.skeleton.Walk i j) :
    ∀ {x y : Fin fine.size} {cost : ℕ},
      (buildLevel fine selected active counters).fineToCoarse x = i →
      (buildLevel fine selected active counters).fineToCoarse y = j →
      Costs (adjacency fine selected.get active) source x cost →
      Costs (adjacency fine selected.get active) source y (cost + walk.length) := by
  induction walk with
  | nil =>
    intro x y cost hx hy h
    exact costs_of_same_cluster (hx.trans hy.symm) h
  | @cons i m j ha walk ih =>
    intro x y cost hx hy h
    obtain ⟨x', z, hx', hz, hj⟩ := joined_of_coarse ha
    have hs : Costs (adjacency fine selected.get active) source z (cost + 1) := by
      have har : ({ target := z, cost := 1, merge := none } : Arc fine.size selected.length) ∈
          adjacency fine selected.get active x' :=
        mem_adjacency.mpr (.inl ⟨hj, rfl, rfl⟩)
      exact (costs_of_same_cluster (hx.trans hx'.symm) h).step har
    have hr := ih hz hy hs
    rw [SimpleGraph.Walk.length_cons]
    rwa [Nat.add_assoc, Nat.add_comm 1] at hr

theorem exists_cheapest {n k : ℕ} {adjacency : Fin n → List (Arc n k)} {source node : Fin n}
    {cost : ℕ} (h : Costs adjacency source node cost) :
    ∃ cheapest ≤ cost, Cheapest adjacency source node cheapest := by
  classical
  have he : ∃ c, Costs adjacency source node c := ⟨cost, h⟩
  exact ⟨Nat.find he, Nat.find_min' he h, Nat.find_spec he,
    fun cost' h' => Nat.find_min' he h'⟩

end lift

/-! ## the distances of the coarse graph -/

section far

variable {dims : ℕ} {mode : Margin} {fine : Graph dims}

def AnchorsFar (mode : Margin) {fine : Graph dims} (level : LevelResult fine) : Prop :=
  ∀ x y p q, (fine.nodes x).fixedPart = some p → (fine.nodes y).fixedPart = some q → p ≠ q →
    min (fine.skeleton.edist x y) ((mode.partDistances p q + mode.fixedMargin : ℕ) : ℕ∞) ≤
      level.graph.skeleton.edist (level.fineToCoarse x) (level.fineToCoarse y)

/-- The required distances of the fixed nodes are in the range of `int`. -/
def RequiredInRange (mode : Margin) (fine : Graph dims) : Prop :=
  ∀ x y p q, (fine.nodes x).fixedPart = some p → (fine.nodes y).fixedPart = some q → p ≠ q →
    mode.partDistances p q + mode.fixedMargin < 2 ^ 31

theorem mem_anchors {x : Fin fine.size} {p : ℕ} (h : (fine.nodes x).fixedPart = some p) :
    x ∈ anchors fine := by
  simp [anchors, h]

theorem anchorPart_eq {x : Fin fine.size} {p : ℕ} (h : (fine.nodes x).fixedPart = some p) :
    anchorPart fine x = p := by
  rw [anchorPart, h]
  rfl

theorem anchors_sorted (fine : Graph dims) : (anchors fine).Pairwise (· < ·) :=
  (pairwise_lt_finRange _).filter _

theorem pairwise_anchors {R : Fin fine.size → Fin fine.size → Prop} (h : (anchors fine).Pairwise R)
    {x y : Fin fine.size} (hx : x ∈ anchors fine) (hy : y ∈ anchors fine)
      (hlt : x < y) : R x y := by
  have ha : (anchors fine).Pairwise fun a b => a < b ∧ R a b :=
    List.Pairwise.and (anchors_sorted fine) h
  obtain ⟨i, rfl⟩ := get_of_mem hx
  obtain ⟨j, rfl⟩ := get_of_mem hy
  rcases lt_trichotomy i j with hi | rfl | hi
  · exact (pairwise_iff_get.mp ha i j hi).2
  · exact absurd hlt (lt_irrefl _)
  · exact absurd hlt (not_lt.mpr (pairwise_iff_get.mp ha j i hi).1.le)

variable {selected : List (Candidate fine.size)} {active : Fin selected.length → Bool}
  {counters : Counters}

variable (counters) in
theorem far_of_not_deficient (hw : RequiredInRange mode fine) {x y : Fin fine.size} {p q : ℕ}
    (hx : (fine.nodes x).fixedPart = some p) (hy : (fine.nodes y).fixedPart = some q) (hne : p ≠ q)
    (h : ¬Deficient mode fine selected active x y) :
    min (fine.skeleton.edist x y) ((mode.partDistances p q + mode.fixedMargin : ℕ) : ℕ∞) ≤
      (buildLevel fine selected active counters).graph.skeleton.edist
        ((buildLevel fine selected active counters).fineToCoarse x)
        ((buildLevel fine selected active counters).fineToCoarse y) := by
  by_cases ht : (buildLevel fine selected active counters).graph.skeleton.edist
      ((buildLevel fine selected active counters).fineToCoarse x)
      ((buildLevel fine selected active counters).fineToCoarse y) = ⊤
  · rw [ht]
    exact le_top
  · obtain ⟨walk, hwl⟩ := (SimpleGraph.reachable_of_edist_ne_top ht).exists_walk_length_eq_edist
    rw [← hwl]
    have hc := costs_of_coarse_walk walk rfl rfl
      (Costs.start : Costs (adjacency fine selected.get active) x x 0)
    obtain ⟨cheapest, hle, hch⟩ := exists_cheapest hc
    rw [Nat.zero_add] at hle
    have ha : minimumAllowed fine mode x y ≤ walk.length := by
      by_contra hlt
      refine h ⟨?_, cheapest, hch, by omega⟩
      rw [anchorPart_eq hx, anchorPart_eq hy]
      exact hne
    rw [minimumAllowed] at ha
    have hlt := hw x y p q hx hy hne
    rw [requiredDistance, anchorPart_eq hx, anchorPart_eq hy,
      MachineInt.int32_eq (by omega) (by exact_mod_cast hlt)] at ha
    split at ha
    · next hn =>
      rw [anchorDistance_none hn, top_inf_eq]
      have hr : mode.partDistances p q + mode.fixedMargin ≤ walk.length := by
        exact_mod_cast ha
      exact_mod_cast hr
    · next baseline hs =>
      rw [anchorDistance_some hs]
      rcases min_le_iff.mp ha with hb | hr
      · exact min_le_iff.mpr (.inl (by exact_mod_cast hb))
      · exact min_le_iff.mpr (.inr (by exact_mod_cast hr))

theorem anchorsFar_of_not_deficient (hw : RequiredInRange mode fine)
    (hr : ∀ node part, (fine.nodes node).fixedPart = some part → part < mode.parts)
    (h : (anchors fine).Pairwise fun x y => ¬Deficient mode fine selected active x y) :
    AnchorsFar mode (buildLevel fine selected active counters) := by
  intro x y p q hx hy hne
  rcases lt_trichotomy x y with hlt | rfl | hlt
  · exact far_of_not_deficient counters hw hx hy hne
      (pairwise_anchors h (mem_anchors hx) (mem_anchors hy) hlt)
  · rw [hx] at hy
    exact absurd (some.inj hy) hne
  · have hf := far_of_not_deficient counters hw hy hx hne.symm
      (pairwise_anchors h (mem_anchors hy) (mem_anchors hx) hlt)
    rw [SimpleGraph.edist_comm, mode.distance_symm p (hr x p hx) q (hr y q hy)]
    exact hf.trans_eq SimpleGraph.edist_comm

end far

section coarsen

variable {dims : ℕ} [NeZero dims] {input : Input dims} {mode : Margin} {fine : Graph dims}

/-- What margin-mode coarsening promises: it ends, never finds too few merges, and keeps the
anchors far apart. -/
structure MarginSafe (input : Input dims) (mode : Margin) (fine : Graph dims)
  (level : ℕ) : Prop where
  ends : ∃ fuel result, coarsenOnce input fine fuel level = ok result
  no_error : ∀ fuel e, coarsenOnce input fine fuel level ≠ some (.error e)
  far : ∀ fuel result, coarsenOnce input fine fuel level = ok result →
    AnchorsFar mode result

omit [NeZero dims] in
theorem not_deficient_of_not_distinct {selected : List (Candidate fine.size)}
    (h : hasDistinctAnchors fine = false) (active : Fin selected.length → Bool) :
    (anchors fine).Pairwise fun x y => ¬Deficient mode fine selected active x y := by
  rw [hasDistinctAnchors, Bool.not_eq_false', decide_eq_true_eq] at h
  exact h.imp fun hs => not_deficient_of_same hs

variable (fine) in
theorem coarsenOnce_eq (hmode : input.margin = some mode) (fuel level : ℕ) :
    coarsenOnce input fine fuel level = if hasDistinctAnchors fine then
        (repair mode fine (selectedMerges input fine level).get fuel fuel (fun _ => true)
          (pairCounters input fine)).andThen fun r =>
            .ok (buildLevel fine (selectedMerges input fine level) r.1 r.2)
      else
        .ok (buildLevel fine (selectedMerges input fine level) (fun _ => true)
          (pairCounters input fine)) := by
  rw [coarsenOnce, hmode]

end coarsen

/-! ## a chain between two anchors -/

section chain

local instance oneDimension : NeZero 1 := ⟨Nat.one_ne_zero⟩

def chainInput (first last : Fin 6) (arcs : List { arc : Fin 6 × Fin 6 // arc.1 ≠ arc.2 }) :
    Input 1 where
  stopDelta := 0
  maxLevels := 1
  seed := 0
  coarseBounds := fun _ => 2
  margin := some
    { parts := 2
      fixedRadius := 0
      fixedMargin := 1
      partDistances := fun part other => if part = other then 0 else 3
      distance_self := fun part _ => if_pos rfl
      distance_symm := fun part _ other _ => by simp only [eq_comm] }
  graph :=
    { size := 6
      nodes := fun node =>
        { fixedPart := if node = first then some 0 else if node = last then some 1 else none
          protectedRadius := node = first || node = last
          weights := fun _ => 1 }
      nets := arcs.map fun arc =>
        { source := arc.1.1
          sinks := {arc.1.2}
          source_not_sink := by simpa using arc.2
          sinks_nonempty := Finset.singleton_nonempty _
          weight := 1 } }
  size_pos := Nat.succ_pos 5
  maxLevels_pos := Nat.one_pos
  bounds_pos := fun _ => two_pos
  front_pos := fun _ => one_pos
  weights_nonneg := fun _ _ => zero_le_one
  weight_pos := by
    intro net hnet
    obtain ⟨arc, -, rfl⟩ := mem_map.mp hnet
    exact one_pos
  fixed_lt := by
    intro mode hmode node part hpart
    cases hmode
    dsimp only at hpart ⊢
    split_ifs at hpart <;> obtain rfl := some.inj hpart <;> decide
  anchors_protected := by
    intro _ node hnode
    dsimp only at hnode ⊢
    split_ifs at hnode with hfirst hlast
    · simp [hfirst]
    · simp [hlast]
    · cases hnode

/-- The free nodes come first. -/
def tangled : Input 1 :=
  chainInput 4 5 [⟨(4, 0), by decide⟩, ⟨(0, 1), by decide⟩, ⟨(1, 2), by decide⟩,
    ⟨(2, 3), by decide⟩, ⟨(3, 5), by decide⟩]

/-- The nodes are in the order of the chain. -/
def untangled : Input 1 :=
  chainInput 0 5 [⟨(0, 1), by decide⟩, ⟨(1, 2), by decide⟩, ⟨(2, 3), by decide⟩,
    ⟨(3, 4), by decide⟩, ⟨(4, 5), by decide⟩]

private def nodeAt (x : Fin 6) : Fin tangled.graph.size := x

def tangledLabels : Option (Fin tangled.graph.size →
    Label tangled.graph.size (selectedMerges tangled tangled.graph 0).length) :=
  search 50 (adjacency tangled.graph (selectedMerges tangled tangled.graph 0).get fun _ => true)
    (nodeAt 4)

theorem tangled_never_ends : ∀ fuel, coarsenOnce tangled tangled.graph fuel 0 = none := by
  have hl : ∀ labels ∈ tangledLabels,
      ((labels (nodeAt 5)).distance = 3 ∧ (labels (nodeAt 5)).parent = some (nodeAt 3)) ∧
      ((labels (nodeAt 3)).parent = some (nodeAt 2) ∧
        (labels (nodeAt 2)).parent = some (nodeAt 1)) ∧
      (labels (nodeAt 1)).parent = some (nodeAt 0) ∧
      (labels (nodeAt 0)).parent = some (nodeAt 1) := by
    decide +kernel
  obtain ⟨labels, hf⟩ : ∃ labels, tangledLabels = some labels :=
    isSome_iff_exists.mp (by decide +kernel)
  obtain ⟨⟨hd, h5⟩, ⟨h3, h2⟩, h1, h0⟩ := hl labels hf
  have hw : ∀ fuel, reconstruct labels (nodeAt 4) fuel (nodeAt 5) = none := by
    intro fuel
    by_contra hs
    obtain ⟨merges, hmr⟩ := ne_none_iff_exists'.mp hs
    have hmo := reconstruct_mono (Nat.le_add_right fuel 3) hmr
    obtain ⟨_, hth⟩ := reconstruct_parent (by decide) h5 hmo
    obtain ⟨_, ht⟩ := reconstruct_parent (by decide) h3 hth
    obtain ⟨_, ho⟩ := reconstruct_parent (by decide) h2 ht
    rw [reconstruct_mutual (by decide) (by decide) h1 h0] at ho
    cases ho
  intro fuel
  have hr : repairRound (tangled.margin.get rfl) tangled.graph
      (selectedMerges tangled tangled.graph 0).get fuel (fun _ => true) = none := by
    have ha : anchors tangled.graph = [(nodeAt 4), (nodeAt 5)] := by decide
    rw [repairRound, ha, repairSources, if_pos (by decide)]
    cases hsr : search fuel (adjacency tangled.graph
        (selectedMerges tangled tangled.graph 0).get fun _ => true) (nodeAt 4) with
    | none => rfl
    | some labels' =>
      have hm := search_mono (Nat.le_max_left fuel 50) hsr
      rw [search_mono (Nat.le_max_right fuel 50) hf] at hm
      cases hm
      have hdf : ¬minimumAllowed tangled.graph (tangled.margin.get rfl) (nodeAt 4) (nodeAt 5) -
          ((3 : ℕ) : ℤ) ≤ 0 := by
        decide +kernel
      have hpart : anchorPart tangled.graph (nodeAt 4) ≠ anchorPart tangled.graph (nodeAt 5) := by
        decide
      have htr : repairTarget (tangled.margin.get rfl) tangled.graph
          (selectedMerges tangled tangled.graph 0).get fuel labels (nodeAt 4) ∅ (nodeAt 5) =
            none := by
        rw [repairTarget, if_neg hpart, hd]
        show (if _ ≤ _ then _ else _) = none
        rw [if_neg hdf, hw]
      show (repairTargets _ _ _ _ _ _ _ _).andThen _ = none
      rw [repairTargets, htr]
      rfl
  have hdt : hasDistinctAnchors tangled.graph = true := by decide
  have hmode : tangled.margin = some (tangled.margin.get rfl) := rfl
  rw [coarsenOnce_eq _ hmode, if_pos hdt]
  cases fuel with
  | zero => rfl
  | succ fuel =>
    rw [repair, hr]
    rfl

end chain

end EmuFlow.Coarsener
