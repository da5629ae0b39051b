import EmuFlow.Coarsener.Coarsen

/-!
# MFSPart coarsener: a level preserves the partition problem

The clusters of a level partition the fine nodes, a coarse node adds up its members, and a coarse
net list costs under every assignment what the fine one costs under the projected assignment, while
the weights stay in the range of the machine's numbers.
-/

namespace EmuFlow.Coarsener

open List Binary64

/-! ## the pass over the unassigned nodes -/

section clusters

variable {n : ℕ} {members : Fin n → List (Fin n)} {clusters : List (List (Fin n))}

structure Classes (members : Fin n → List (Fin n)) : Prop where
  self : ∀ x, x ∈ members x
  same : ∀ x, ∀ y ∈ members x, members y = members x
  nodup : ∀ x, (members x).Nodup

theorem Classes.singletons : Classes fun x : Fin n => [x] where
  self := fun x => mem_singleton_self x
  same := by
    intro x y hy
    rw [mem_singleton.mp hy]
  nodup := fun x => nodup_singleton x

structure Partial (members : Fin n → List (Fin n)) (clusters : List (List (Fin n))) : Prop where
  nodup : clusters.flatten.Nodup
  closed : ∀ x, assigned clusters x = true → ∀ y ∈ members x, assigned clusters y = true

theorem assigned_iff_mem_flatten {x : Fin n} :
    assigned clusters x = true ↔ x ∈ clusters.flatten := by
  rw [assigned_iff, mem_flatten]

theorem Partial.append (hc : Classes members) (h : Partial members clusters) {x : Fin n}
    (hx : ¬assigned clusters x = true) : Partial members (clusters ++ [members x]) where
  nodup := by
    rw [flatten_append, flatten_singleton, nodup_append]
    refine ⟨h.nodup, hc.nodup x, fun a ha b hb hab => hx ?_⟩
    subst hab
    refine h.closed a (assigned_iff_mem_flatten.mpr ha) x ?_
    rw [hc.same x a hb]
    exact hc.self x
  closed := by
    intro y hy z hz
    rw [assigned_append] at hy ⊢
    rcases hy with hy | hy
    · exact .inl (h.closed y hy z hz)
    · right
      rw [← hc.same x y hy]
      exact hz

variable (clusters) in
theorem Partial.appendUnassigned (hc : Classes members) (h : Partial members clusters) :
    Partial members (appendUnassigned members clusters) := by
  refine foldlRecOn (finRange n) _ h fun clusters h x _ => ?_
  split_ifs with hx
  · exact h
  · exact h.append hc hx

theorem mem_appendUnassigned {cluster : List (Fin n)}
    (h : cluster ∈ appendUnassigned members clusters) :
    cluster ∈ clusters ∨ ∃ x, cluster = members x := by
  have hs : ∀ cluster ∈ clusters, cluster ∈ clusters ∨ ∃ x, cluster = members x :=
    fun _ h => .inl h
  have ha : ∀ cluster ∈ appendUnassigned members clusters,
      cluster ∈ clusters ∨ ∃ x, cluster = members x := by
    refine foldlRecOn (motive := fun clusters' => ∀ cluster ∈ clusters',
      cluster ∈ clusters ∨ ∃ x, cluster = members x) (finRange n) _ hs
      fun clusters' h x _ => ?_
    split_ifs
    · exact h
    · intro cluster hc
      rcases List.mem_append.mp hc with hm | hm
      · exact h cluster hm
      · exact .inr ⟨x, mem_singleton.mp hm⟩
  exact ha cluster h

end clusters

section level

variable {dims : ℕ} {fine : Graph dims} {level : LevelResult fine}

theorem mem_get_fineToCoarse (level : LevelResult fine) (x : Fin fine.size) :
    x ∈ level.clusters.get (level.fineToCoarse x) := by
  have h : ((level.clusters.get (level.fineToCoarse x)).contains x) = true :=
    findIdx_getElem (p := fun cluster : List (Fin fine.size) => cluster.contains x)
      (w := (level.fineToCoarse x).isLt)
  exact contains_iff_mem.mp h

theorem fineToCoarse_eq (hn : level.clusters.flatten.Nodup) {x : Fin fine.size}
    {coarse : Fin level.clusters.length} :
    level.fineToCoarse x = coarse ↔ x ∈ level.clusters.get coarse := by
  constructor
  · rintro rfl
    exact mem_get_fineToCoarse level x
  · intro h
    by_contra hne
    have hp := (nodup_flatten.mp hn).2
    have hd : ∀ i j : Fin level.clusters.length, i < j →
        List.Disjoint (level.clusters.get i) (level.clusters.get j) :=
      fun i j hi => pairwise_iff_get.mp hp i j hi
    rcases lt_or_gt_of_ne hne with hlt | hlt
    · exact hd _ _ hlt (mem_get_fineToCoarse level x) h
    · exact hd _ _ hlt h (mem_get_fineToCoarse level x)

/-! ## the coarse node -/

section

variable (nodes : Fin fine.size → Node dims)
include nodes

theorem foldl_absorb_weights (dimension : Fin dims) :
    ∀ (rest : List (Fin fine.size)) (coarse : Node dims),
      (∀ x ∈ rest, 0 ≤ (nodes x).weights dimension) → 0 ≤ coarse.weights dimension →
      coarse.weights dimension + (rest.map fun x => (nodes x).weights dimension).sum < 2 ^ 63 →
      (rest.foldl (fun coarse member => absorb coarse (nodes member)) coarse).weights dimension =
        coarse.weights dimension + (rest.map fun x => (nodes x).weights dimension).sum
  | [], coarse, _, _, _ => by simp
  | x :: rest, coarse, hr, hc, hlt => by
    obtain ⟨hx, hr⟩ := forall_mem_cons.mp hr
    rw [map_cons, sum_cons] at hlt ⊢
    have hs : 0 ≤ (rest.map fun x => (nodes x).weights dimension).sum :=
      List.sum_nonneg (forall_mem_map.mpr hr)
    have ha : (absorb coarse (nodes x)).weights dimension =
        coarse.weights dimension + (nodes x).weights dimension :=
      MachineInt.int64_eq (by omega) (by omega)
    rw [foldl_cons, foldl_absorb_weights dimension rest _ hr (by omega) (by omega), ha,
      add_assoc]

theorem clusterNode_weights (dimension : Fin dims) (cluster : List (Fin fine.size))
    (hn : ∀ x ∈ cluster, 0 ≤ (nodes x).weights dimension)
    (hlt : (cluster.map fun x => (nodes x).weights dimension).sum < 2 ^ 63) :
    (clusterNode nodes cluster).weights dimension =
      (cluster.map fun x => (nodes x).weights dimension).sum := by
  cases cluster with
  | nil => rfl
  | cons first rest =>
    obtain ⟨hf, hr⟩ := forall_mem_cons.mp hn
    rw [map_cons, sum_cons] at hlt ⊢
    exact foldl_absorb_weights nodes dimension rest _ hr hf hlt

theorem foldl_absorb_fixed {part : ℕ} : ∀ (rest : List (Fin fine.size)) (coarse : Node dims),
      (rest.foldl (fun coarse member => absorb coarse (nodes member)) coarse).fixedPart =
        some part → coarse.fixedPart = some part ∨ ∃ x ∈ rest, (nodes x).fixedPart = some part
  | [], coarse, h => .inl h
  | x :: rest, coarse, h => by
    rcases foldl_absorb_fixed rest _ h with hc | ⟨y, hy, hp⟩
    · simp only [absorb] at hc
      cases hf : coarse.fixedPart with
      | none =>
        rw [hf] at hc
        exact .inr ⟨x, mem_cons_self, hc⟩
      | some value =>
        rw [hf] at hc
        exact .inl hc
    · exact .inr ⟨y, mem_cons_of_mem _ hy, hp⟩

theorem foldl_absorb_fixed_some : ∀ (rest : List (Fin fine.size)) (coarse : Node dims),
      (coarse.fixedPart.isSome = true ∨ ∃ x ∈ rest, (nodes x).fixedPart.isSome = true) →
      (rest.foldl (fun coarse member => absorb coarse (nodes member)) coarse).fixedPart.isSome =
        true
  | [], coarse, h => by simpa using h
  | x :: rest, coarse, h => by
    refine foldl_absorb_fixed_some rest _ ?_
    simp only [absorb]
    rcases h with h | ⟨y, hy, h⟩
    · obtain ⟨value, hv⟩ := Option.isSome_iff_exists.mp h
      exact .inl (by rw [hv]; rfl)
    · rcases mem_cons.mp hy with rfl | hy
      · left
        cases hf : coarse.fixedPart with
        | none => exact h
        | some value => rfl
      · exact .inr ⟨y, hy, h⟩

end

variable {cluster : List (Fin fine.size)} {nodes : Fin fine.size → Node dims}

theorem clusterNode_fixed {part : ℕ} (h : (clusterNode nodes cluster).fixedPart = some part) :
    ∃ x ∈ cluster, (nodes x).fixedPart = some part := by
  cases cluster with
  | nil => cases h
  | cons first rest =>
    rcases foldl_absorb_fixed nodes rest _ h with hf | ⟨x, hx, hp⟩
    · exact ⟨first, mem_cons_self, hf⟩
    · exact ⟨x, mem_cons_of_mem _ hx, hp⟩

theorem clusterNode_fixed_some {x : Fin fine.size} (hx : x ∈ cluster)
    (h : (nodes x).fixedPart.isSome = true) :
    (clusterNode nodes cluster).fixedPart.isSome = true := by
  cases cluster with
  | nil => exact absurd hx not_mem_nil
  | cons first rest =>
    rcases mem_cons.mp hx with rfl | hm
    · exact foldl_absorb_fixed_some nodes rest _ (.inl h)
    · exact foldl_absorb_fixed_some nodes rest _ (.inr ⟨x, hm, h⟩)

end level

/-! ## the nets -/

section nets

variable {n m : ℕ} {part : Type} [DecidableEq part]

def sinkParts (key : NetKey n) (assignment : Fin n → part) : Finset part :=
  (key.sinks.image assignment).erase (assignment key.source)

def connectivity (nets : List (Net n)) (assignment : Fin n → part) : ℚ :=
  (nets.map fun net => net.weight * ((sinkParts net.toNetKey assignment).card : ℚ)).sum

def cutCost (nets : List (Net n)) (assignment : Fin n → part) : ℚ :=
  (nets.map fun net =>
    if (sinkParts net.toNetKey assignment).Nonempty then net.weight else 0).sum

def netCost (cost : Finset part → ℚ) (nets : List (Net n)) (assignment : Fin n → part) : ℚ :=
  (nets.map fun net => net.weight * cost (sinkParts net.toNetKey assignment)).sum

theorem connectivity_eq (nets : List (Net n)) (assignment : Fin n → part) :
    connectivity nets assignment = netCost (fun parts => (parts.card : ℚ)) nets assignment := rfl

theorem cutCost_eq (nets : List (Net n)) (assignment : Fin n → part) : cutCost nets assignment =
      netCost (fun parts => if parts.Nonempty then 1 else 0) nets assignment := by
  simp only [cutCost, netCost, mul_ite, mul_one, mul_zero]

/-- Pins mapped to coarse nodes keep their sink parts; pins that fall together have none. -/
theorem sinkParts_mapKey {fineToCoarse : Fin n → Fin m} {key : NetKey n}
    (assignment : Fin m → part) : sinkParts key (assignment ∘ fineToCoarse) =
      ((mapKey fineToCoarse key).map fun coarse => sinkParts coarse assignment).getD ∅ := by
  have hi : (((key.sinks.image fineToCoarse).erase (fineToCoarse key.source)).image
      assignment).erase (assignment (fineToCoarse key.source)) =
        sinkParts key (assignment ∘ fineToCoarse) := by
    ext p
    simp only [sinkParts, Finset.mem_erase, Finset.mem_image, Function.comp_apply]
    refine and_congr_right fun hp => ⟨?_, ?_⟩
    · rintro ⟨y, ⟨-, x, hx, rfl⟩, hxp⟩
      exact ⟨x, hx, hxp⟩
    · rintro ⟨x, hx, hxp⟩
      refine ⟨fineToCoarse x, ⟨?_, x, hx, rfl⟩, hxp⟩
      intro hs
      rw [← hxp, hs] at hp
      exact hp rfl
  rw [mapKey]
  split_ifs with h
  · exact hi.symm
  · rw [Finset.not_nonempty_iff_eq_empty] at h
    rw [← hi, h]
    simp

variable {k : ℤ} {fineToCoarse : Fin n → Fin m} {net : Net n} {nets : List (Net n)}
  {aggregated : List (NetKey m × ℚ)}

/-- The weights in the map and those still to come need no rounding. -/
def ExactPending (k : ℤ) (aggregated : List (NetKey m × ℚ)) (nets : List (Net n)) : Prop :=
  Binary64.Exact k (aggregated.map Prod.snd ++ nets.map Net.weight)

theorem ExactPending.add_eq (h : ExactPending k aggregated (net :: nets)) :
    ∀ e ∈ aggregated, add e.2 net.weight = e.2 + net.weight := by
  intro e he
  have hp : [e.2, net.weight].Sublist
      (aggregated.map Prod.snd ++ (net :: nets).map Net.weight) :=
    (singleton_sublist.mpr (mem_map_of_mem he)).append
      (singleton_sublist.mpr (mem_map_of_mem mem_cons_self))
  exact (h.of_sublist hp).add_eq

theorem ExactPending.step (h : ExactPending k aggregated (net :: nets)) :
    ExactPending k (aggregate fineToCoarse aggregated net) nets := by
  have hn : net.weight ∈ grid k := h.mem_grid _ (by simp)
  have hr : ∀ v ∈ nets.map Net.weight, v ∈ grid k :=
    fun v hv => h.mem_grid v (by simp [mem_map.mp hv])
  have ho : ∀ e ∈ aggregated, e.2 ∈ grid k :=
    fun e he => h.mem_grid _ (mem_append_left _ (mem_map_of_mem he))
  rw [aggregate]
  cases mapKey fineToCoarse net.toNetKey with
  | none => exact h.of_sublist ((Sublist.refl _).append (sublist_cons_self _ _))
  | some key =>
    refine h.of_sum_le (forall_mem_append.mpr ⟨forall_mem_map.mpr ?_, hr⟩) ?_
    · refine OrderedMap.forall_add ho hn fun e he => ?_
      rw [h.add_eq e he]
      exact (grid k).add_mem (ho e he) hn
    · have hs := OrderedMap.sum_add_le NetKey.less key (fun weight : ℚ => |weight|)
        fun e he => (congrArg abs (h.add_eq e he)).le.trans (abs_add_le _ _)
      simp only [map_append, map_map, map_cons, sum_append, sum_cons, Function.comp_def]
      linarith

theorem exact_rebuildNets (h : Binary64.Exact k (nets.map Net.weight)) :
    Binary64.Exact k ((rebuildNets nets fineToCoarse).map Net.weight) := by
  have ha : ∀ (nets : List (Net n)) (aggregated : List (NetKey m × ℚ)),
      ExactPending k aggregated nets →
      ExactPending k (nets.foldl (aggregate fineToCoarse) aggregated) ([] : List (Net n)) := by
    intro nets
    induction nets with
    | nil => exact fun _ h => h
    | cons net nets ih => exact fun _ h => ih _ h.step
  have he := ha nets [] h
  rw [ExactPending, map_nil, append_nil] at he
  rwa [rebuildNets, map_map]

variable {cost : Finset part → ℚ} (hcost : cost ∅ = 0)

include hcost

theorem netCost_rebuildNets (h : Binary64.Exact k (nets.map Net.weight))
    (assignment : Fin m → part) : netCost cost (rebuildNets nets fineToCoarse) assignment =
      netCost cost nets (assignment ∘ fineToCoarse) := by
  -- the sum over the map grows by the net's own term
  have hf : ∀ (nets : List (Net n)) (aggregated : List (NetKey m × ℚ)),
      ExactPending k aggregated nets →
      ((nets.foldl (aggregate fineToCoarse) aggregated).map fun e =>
          e.2 * cost (sinkParts e.1 assignment)).sum =
        (aggregated.map fun e => e.2 * cost (sinkParts e.1 assignment)).sum +
          netCost cost nets (assignment ∘ fineToCoarse) := by
    intro nets
    induction nets with
    | nil => simp [netCost]
    | cons net nets ih =>
      intro aggregated h
      have hs : ((aggregate fineToCoarse aggregated net).map fun e =>
            e.2 * cost (sinkParts e.1 assignment)).sum =
          (aggregated.map fun e => e.2 * cost (sinkParts e.1 assignment)).sum +
            net.weight * cost (sinkParts net.toNetKey (assignment ∘ fineToCoarse)) := by
        rw [aggregate, sinkParts_mapKey]
        cases mapKey fineToCoarse net.toNetKey with
        | none => simp [hcost]
        | some key =>
          dsimp only
          rw [OrderedMap.add_congr h.add_eq]
          exact OrderedMap.sum_add (fun key => AddMonoidHom.mulRight
            (cost (sinkParts key assignment))) net.weight
      rw [foldl_cons, ih _ h.step, hs, netCost, netCost, map_cons, sum_cons, add_assoc]
  have he := hf nets [] h
  rw [map_nil, sum_nil, zero_add] at he
  rw [← he, netCost, rebuildNets, map_map]
  rfl

end nets

end EmuFlow.Coarsener
