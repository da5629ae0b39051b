import EmuFlow.Coarsener.Matching

/-!
# MFSPart coarsener: the walk along the parents

A free arc leads both ways, so the two nodes of a merge can become each other's parent: the one
whose index is smaller than every neighbour one hop closer takes the place of the parent the other
was reached from. The walk along the parents ends exactly when it meets no such pair, and then it
passes enough merges.
-/

namespace EmuFlow.Coarsener

open List

section predecessor

variable {n k : ℕ} (adjacency : Fin n → List (Arc n k)) (source : Fin n)

def Cheapest (node : Fin n) (cost : ℕ) : Prop :=
  Costs adjacency source node cost ∧ ∀ cost', Costs adjacency source node cost' → cost ≤ cost'

/-- A cheapest walk to the node can come through the other one. -/
def Tight (node before : Fin n) : Prop :=
  ∃ arc ∈ adjacency before, arc.target = node ∧ ∃ cost, Cheapest adjacency source before cost ∧
      Cheapest adjacency source node (cost + arc.cost)

/-- The smallest node through which a cheapest walk can come. -/
def Predecessor (node before : Fin n) : Prop :=
  Tight adjacency source node before ∧ ∀ other, Tight adjacency source node other → before ≤ other

inductive OnPath (target : Fin n) : Fin n → Prop
  | target : OnPath target target
  | back {node before : Fin n} (h : OnPath target node) (hne : node ≠ source)
      (hbefore : Predecessor adjacency source node before) : OnPath target before

/-- The way back meets two nodes that are each other's predecessor. -/
def Entangled (target : Fin n) : Prop :=
  ∃ x u, OnPath adjacency source target x ∧ x ≠ source ∧ u ≠ source ∧
    Predecessor adjacency source x u ∧ Predecessor adjacency source u x

end predecessor

/-! ## the labels of a search -/

namespace Searched

variable {n k : ℕ} {adjacency : Fin n → List (Arc n k)} {source : Fin n}
  {labels : Fin n → Label n k} (h : Searched adjacency source labels)

include h

variable {cost : ℕ}

/-- A label holds the cost of a cheapest walk. -/
theorem cheapest_iff {node : Fin n} :
    Cheapest adjacency source node cost ↔ (labels node).distance = cost := by
  constructor
  · rintro ⟨hc, hm⟩
    obtain ⟨distance, hd, hle⟩ := h.distance_le hc
    rw [hd, le_antisymm hle (hm distance (h.costs node distance hd))]
  · intro hd
    refine ⟨h.costs node cost hd, fun cost' hc' => ?_⟩
    obtain ⟨distance, hd', hle⟩ := h.distance_le hc'
    rw [hd] at hd'
    have hs : cost = distance := by exact_mod_cast hd'
    omega

/-- The parent of a node is its smallest predecessor on a cheapest walk. -/
theorem parent_iff {node before : Fin n} (hnd : node ≠ source)
    (hc : (labels node).distance = cost) :
    (labels node).parent = some before ↔ Predecessor adjacency source node before := by
  obtain ⟨parent, arc, ha, now, ht, hn, hs, hp, -⟩ := h.tight hnd hc
  have htg : Tight adjacency source node parent :=
    ⟨arc, ha, ht, now, h.cheapest_iff.mpr hn, h.cheapest_iff.mpr (by rw [hc, hs])⟩
  have hm : ∀ other, Tight adjacency source node other → parent ≤ other := by
    rintro other ⟨arc', ha', ht', cost', ho, hnd'⟩
    have hle := h.closed other cost' (h.cheapest_iff.mp ho) arc' ha'
    rw [ht', Label.le_iff, distance_make, h.cheapest_iff.mp hnd'] at hle
    have hk := (hle.resolve_left (lt_irrefl _)).2
    have hf : @LE.le (WithBot (Fin n)) _ (labels node).parent (some other) :=
      Prod.Lex.monotone_fst _ _ hk
    rw [hp] at hf
    exact WithBot.coe_le_coe.mp hf
  rw [hp]
  constructor
  · rintro hsm
    cases hsm
    exact ⟨htg, hm⟩
  · rintro ⟨hbefore, hb'⟩
    rw [le_antisymm (hm before hbefore) (hb' parent htg)]

theorem parent_distance {node before : Fin n} (hn : node ≠ source)
    (hc : (labels node).distance = cost) (hp : (labels node).parent = some before) :
    ∃ cost' : ℕ, (labels before).distance = cost' := by
  obtain ⟨parent, arc, -, now, -, hnw, -, hp', -⟩ := h.tight hn hc
  rw [hp] at hp'
  cases hp'
  exact ⟨now, hnw⟩

theorem onPath_distance {target node : Fin n} (ht : (labels target).distance = cost)
    (hp : OnPath adjacency source target node) :
    ∃ cost' : ℕ, (labels node).distance = cost' := by
  induction hp with
  | target => exact ⟨cost, ht⟩
  | back _ hne hbefore ih =>
    obtain ⟨cost', hc'⟩ := ih
    exact h.parent_distance hne hc' ((h.parent_iff hne hc').mpr hbefore)

end Searched

section reconstruct

variable {n k : ℕ} {labels : Fin n → Label n k} {source : Fin n}

theorem reconstruct_mono {fuel fuel' : ℕ} {node : Fin n} {merges : List (Fin k)}
    (hle : fuel ≤ fuel') (h : reconstruct labels source fuel node = some merges) :
    reconstruct labels source fuel' node = some merges := by
  induction fuel generalizing fuel' node merges with
  | zero => cases h
  | succ fuel ih =>
    obtain ⟨fuel', rfl⟩ : ∃ j, fuel' = j + 1 := ⟨fuel' - 1, by omega⟩
    rw [reconstruct] at h ⊢
    split_ifs at h ⊢ with hs
    · exact h
    · split at h
      · exact h
      · obtain ⟨rest, hr, rfl⟩ := Option.map_eq_some_iff.mp h
        rw [ih (by omega) hr]
        rfl

theorem reconstruct_parent {fuel : ℕ} {node before : Fin n} {merges : List (Fin k)}
    (hne : node ≠ source) (hp : (labels node).parent = some before)
    (h : reconstruct labels source (fuel + 1) node = some merges) :
    ∃ rest, reconstruct labels source fuel before = some rest := by
  rw [reconstruct, if_neg hne, hp] at h
  obtain ⟨rest, hr, -⟩ := Option.map_eq_some_iff.mp h
  exact ⟨rest, hr⟩

/-- Between two nodes that are each other's parents the way back never ends. -/
theorem reconstruct_mutual {x u : Fin n} (hx : x ≠ source) (hu : u ≠ source)
    (hxu : (labels x).parent = some u) (hux : (labels u).parent = some x) (fuel : ℕ) :
    reconstruct labels source fuel x = none := by
  induction fuel using Nat.strong_induction_on with
  | _ fuel ih =>
    by_contra hs
    obtain ⟨merges, hm⟩ := Option.ne_none_iff_exists'.mp hs
    match fuel with
    | 0 => cases hm
    | fuel + 1 =>
      obtain ⟨rest, hr⟩ := reconstruct_parent hx hxu hm
      match fuel with
      | 0 => cases hr
      | fuel + 1 =>
        obtain ⟨rest', hr'⟩ := reconstruct_parent hu hux hr
        rw [ih fuel (by omega)] at hr'
        cases hr'

end reconstruct

section arcs

variable {dims : ℕ} {fine : Graph dims} {selected : List (Candidate fine.size)}
  {active : Fin selected.length → Bool}

def Mates (selected : List (Candidate fine.size)) (active : Fin selected.length → Bool)
    (merge : Fin selected.length) (x y : Fin fine.size) : Prop :=
  active merge = true ∧ ((selected.get merge).left = x ∧ (selected.get merge).right = y ∨
    (selected.get merge).right = x ∧ (selected.get merge).left = y)

variable {merge : Fin selected.length}

theorem Mates.symm {x y : Fin fine.size}
    (h : Mates selected active merge x y) : Mates selected active merge y x :=
  ⟨h.1, h.2.symm.imp (fun h => ⟨h.2, h.1⟩) fun h => ⟨h.2, h.1⟩⟩

theorem Mates.mem {x y : Fin fine.size}
    (h : Mates selected active merge x y) : x ∈ (selected.get merge).nodes := by
  rcases h.2 with ⟨rfl, -⟩ | ⟨rfl, -⟩
  · simp [Candidate.nodes]
  · simp [Candidate.nodes]

theorem Mates.unique (hm : Matching selected) {merge merge' : Fin selected.length}
    {x y z : Fin fine.size} (h : Mates selected active merge x y)
    (h' : Mates selected active merge' x z) : merge = merge' ∧ y = z := by
  obtain rfl := hm.eq_of_mem h.mem h'.mem
  have hne := hm.ne _ (get_mem selected merge)
  refine ⟨rfl, ?_⟩
  rcases h.2 with ⟨rfl, rfl⟩ | ⟨rfl, rfl⟩
  · rcases h'.2 with ⟨-, rfl⟩ | ⟨hs, -⟩
    · rfl
    · exact absurd hs.symm hne
  · rcases h'.2 with ⟨hs, -⟩ | ⟨-, rfl⟩
    · exact absurd hs hne
    · rfl

/-- The arcs of a node: its nets for one, and its active merges for nothing. -/
theorem mem_adjacency {x : Fin fine.size} {arc : Arc fine.size selected.length} :
    arc ∈ adjacency fine selected.get active x ↔
      (Joined fine x arc.target ∧ arc.cost = 1 ∧ arc.merge = none) ∨
        ∃ merge, Mates selected active merge x arc.target ∧ arc.cost = 0 ∧
          arc.merge = some merge := by
  simp only [adjacency, List.mem_append, mem_map, mem_flatMap, mem_finRange,
    true_and, mem_ite_nil_right, mem_singleton, mem_neighbors]
  refine or_congr ?_ (exists_congr fun merge => ?_)
  · constructor
    · rintro ⟨target, ht, rfl⟩
      exact ⟨ht, rfl, rfl⟩
    · rintro ⟨hj, hc, hm⟩
      refine ⟨arc.target, hj, ?_⟩
      rw [← hc, ← hm]
  · constructor
    · rintro ⟨ha, ⟨hl, rfl⟩ | ⟨hr, rfl⟩⟩
      · exact ⟨⟨ha, .inl ⟨hl, rfl⟩⟩, rfl, rfl⟩
      · exact ⟨⟨ha, .inr ⟨hr, rfl⟩⟩, rfl, rfl⟩
    · rintro ⟨⟨ha, ⟨hl, hr⟩ | ⟨hr, hl⟩⟩, hc, hm⟩
      · exact ⟨ha, .inl ⟨hl, by rw [hr, ← hc, ← hm]⟩⟩
      · exact ⟨ha, .inr ⟨hr, by rw [hl, ← hc, ← hm]⟩⟩

end arcs

/-! ## the walk back passes enough merges -/

section walkBack

variable {dims : ℕ} {fine : Graph dims} {selected : List (Candidate fine.size)}
  {active : Fin selected.length → Bool} {source : Fin fine.size}
  {labels : Fin fine.size → Label fine.size selected.length}

/-- A parent is one net away, or a mate at the same cost. -/
theorem Searched.parent_cases
    (h : Searched (adjacency fine selected.get active) source labels)
    {x : Fin fine.size} {cost : ℕ} (hne : x ≠ source) (hc : (labels x).distance = cost) :
    ∃ before, (labels x).parent = some before ∧
      ((∃ cost' : ℕ, (labels before).distance = cost' ∧ cost = cost' + 1 ∧
          Joined fine before x ∧ (labels x).parentMerge = none) ∨
        ((labels before).distance = cost ∧ ∃ merge, Mates selected active merge before x ∧
          (labels x).parentMerge = some merge)) := by
  obtain ⟨before, arc, ha, now, ht, hnw, hsm, hp, hm⟩ := h.tight hne hc
  refine ⟨before, hp, ?_⟩
  rcases mem_adjacency.mp ha with ⟨hj, ho, hn⟩ | ⟨merge, hmt, hz, hs⟩
  · rw [ht] at hj
    exact .inl ⟨now, hnw, by omega, hj, by rw [hm, hn]⟩
  · rw [ht] at hmt
    refine .inr ⟨?_, merge, hmt, by rw [hm, hs]⟩
    rw [hnw, ← hsm, hz, Nat.add_zero]

/-- What is known of the merges passed on the way back from a node at some distance. -/
structure Passes (fine : Graph dims) (selected : List (Candidate fine.size))
    (active : Fin selected.length → Bool) (labels : Fin fine.size → Label fine.size selected.length)
    (source x : Fin fine.size) (cost : ℕ) (merges : List (Fin selected.length)) : Prop where
  nodup : merges.Nodup
  active : ∀ merge ∈ merges, active merge = true
  near : ∀ merge ∈ merges, ∀ node ∈ (selected.get merge).nodes,
    ∃ cost' ≤ cost, (labels node).distance = (cost' : ℕ)
  /-- Every merge stands for a hop. -/
  walk : ∃ walk : fine.skeleton.Walk source x, walk.length = cost + merges.length

variable {merges : List (Fin selected.length)} {x before : Fin fine.size}

theorem Passes.unit {cost : ℕ}
    (h : Passes fine selected active labels source before cost merges)
    (hj : Joined fine before x) :
    Passes fine selected active labels source x (cost + 1) merges where
  nodup := h.nodup
  active := h.active
  near := by
    intro merge hm node hn
    obtain ⟨cost', hle, hc'⟩ := h.near merge hm node hn
    exact ⟨cost', by omega, hc'⟩
  walk := by
    obtain ⟨walk, hw⟩ := h.walk
    have ha : fine.skeleton.Adj before x := hj
    refine ⟨walk.concat ha, ?_⟩
    rw [SimpleGraph.Walk.length_concat, hw]
    omega

theorem Passes.free (hjn : ∀ c ∈ selected, Joined fine c.left c.right)
    {cost : ℕ}
    {merge : Fin selected.length}
    (h : Passes fine selected active labels source before cost merges)
    (hm : Mates selected active merge before x) (hx : (labels x).distance = cost)
    (hbefore : (labels before).distance = cost) (hnw : merge ∉ merges) :
    Passes fine selected active labels source x cost (merge :: merges) where
  nodup := nodup_cons.mpr ⟨hnw, h.nodup⟩
  active := forall_mem_cons.mpr ⟨hm.1, h.active⟩
  near := by
    refine forall_mem_cons.mpr ⟨fun node hn => ⟨cost, Nat.le_refl _, ?_⟩, h.near⟩
    rcases hm.2 with ⟨rfl, rfl⟩ | ⟨rfl, rfl⟩
    · rcases mem_pair.mp hn with rfl | rfl
      · exact hbefore
      · exact hx
    · rcases mem_pair.mp hn with rfl | rfl
      · exact hx
      · exact hbefore
  walk := by
    obtain ⟨walk, hw⟩ := h.walk
    have ha : fine.skeleton.Adj before x := by
      have hj := hjn _ (get_mem selected merge)
      rcases hm.2 with ⟨rfl, rfl⟩ | ⟨rfl, rfl⟩
      · exact hj
      · exact hj.symm
    refine ⟨walk.concat ha, ?_⟩
    rw [SimpleGraph.Walk.length_concat, hw, length_cons]
    omega

/-- **The way back ends where it is not entangled**, and passes no merge twice. -/
theorem Searched.reconstruct_ends (hmc : Matching selected)
    (hjs : ∀ c ∈ selected, Joined fine c.left c.right)
    (h : Searched (adjacency fine selected.get active) source labels) {target : Fin fine.size}
    (hfre : ¬Entangled (adjacency fine selected.get active) source target) :
    ∀ {cost : ℕ} {x : Fin fine.size}, (labels x).distance = cost →
      OnPath (adjacency fine selected.get active) source target x →
      ∃ fuel merges, reconstruct labels source fuel x = some merges ∧
        Passes fine selected active labels source x cost merges := by
  intro cost
  induction cost using Nat.strong_induction_on with
  | _ cost ih =>
    intro x hcs hpt
    -- one hop closer the way back is known to end
    have hun : ∀ {y before : Fin fine.size} {cost' : ℕ}, y ≠ source →
        OnPath (adjacency fine selected.get active) source target y →
        (labels y).distance = cost → (labels y).parent = some before →
        (labels before).distance = cost' → cost = cost' + 1 → Joined fine before y →
        (labels y).parentMerge = none → ∃ fuel merges,
          reconstruct labels source fuel y = some merges ∧
          Passes fine selected active labels source y cost merges ∧
          ∀ merge ∈ merges, ∀ node ∈ (selected.get merge).nodes,
            ∃ near < cost, (labels node).distance = (near : ℕ) := by
      intro y before cost' hne hpt hy hpr hbefore hsu hjn hmg
      obtain ⟨fuel, merges, hmr, hps⟩ := ih cost' (by omega) hbefore
        (hpt.back hne ((h.parent_iff hne hy).mp hpr))
      refine ⟨fuel + 1, merges, ?_, hsu ▸ hps.unit hjn, ?_⟩
      · rw [reconstruct, if_neg hne, hpr, hmg]
        dsimp only
        rw [hmr]
        rfl
      · intro merge hmm node hnd
        obtain ⟨near, hle, hnr⟩ := hps.near merge hmm node hnd
        exact ⟨near, by omega, hnr⟩
    by_cases hx : x = source
    · subst hx
      rw [h.source_label, distance_make] at hcs
      obtain rfl : 0 = cost := by exact_mod_cast hcs
      refine ⟨1, [], by rw [reconstruct, if_pos rfl], ?_⟩
      exact ⟨nodup_nil, by simp, by simp, .nil, rfl⟩
    · obtain ⟨before, hpr, ⟨cost', hbefore, hsu, hjn, hmg⟩ |
        ⟨hbefore, merge, hmt, hmg⟩⟩ := h.parent_cases hx hcs
      · obtain ⟨fuel, merges, hmr, hps, -⟩ :=
          hun hx hpt hcs hpr hbefore hsu hjn hmg
        exact ⟨fuel, merges, hmr, hps⟩
      · have hpd := (h.parent_iff hx hcs).mp hpr
        have hbc : ∀ {fuel : ℕ} {merges : List (Fin selected.length)},
            reconstruct labels source fuel before = some merges →
            reconstruct labels source (fuel + 1) x = some (merge :: merges) := by
          intro fuel merges hmr
          rw [reconstruct, if_neg hx, hpr, hmg]
          dsimp only
          rw [hmr]
          rfl
        by_cases hsr : before = source
        · subst hsr
          have hzr : cost = 0 := by
            rw [h.source_label, distance_make] at hbefore
            exact_mod_cast hbefore.symm
          subst hzr
          refine ⟨2, [merge], hbc (by rw [reconstruct, if_pos rfl]), ?_⟩
          exact Passes.free hjs ⟨nodup_nil, by simp, by simp, .nil, rfl⟩ hmt hcs
            hbefore not_mem_nil
        · obtain ⟨further, hpr', ⟨cost', hfr, hsu, hjn, hmg'⟩ |
            ⟨-, merge', hmt', -⟩⟩ := h.parent_cases hsr hbefore
          · obtain ⟨fuel, merges, hmr, hps, hnr⟩ := hun hsr
              (hpt.back hx hpd) hbefore hpr' hfr hsu hjn hmg'
            refine ⟨fuel + 1, merge :: merges, hbc hmr,
              hps.free hjs hmt hcs hbefore fun hmm => ?_⟩
            -- the merges further on are closer than this one
            obtain ⟨near, hlt, hds⟩ := hnr merge hmm before hmt.mem
            rw [hbefore] at hds
            have hsm : cost = near := by exact_mod_cast hds
            omega
          · -- the mate's own parent could only be the node itself
            obtain ⟨-, rfl⟩ := hmt.unique hmc hmt'.symm
            exact absurd ⟨x, before, hpt, hx, hsr, hpd,
              (h.parent_iff hsr hbefore).mp hpr'⟩ hfre

/-- A way back that ends is not entangled. -/
theorem Searched.not_entangled {n k : ℕ} {adjacency : Fin n → List (Arc n k)} {source : Fin n}
    {labels : Fin n → Label n k} (h : Searched adjacency source labels) {target : Fin n}
    {cost fuel : ℕ} {merges : List (Fin k)} (hc : (labels target).distance = cost)
    (hm : reconstruct labels source fuel target = some merges) :
    ¬Entangled adjacency source target := by
  have hp : ∀ x, OnPath adjacency source target x →
      ∃ fuel merges, reconstruct labels source fuel x = some merges := by
    intro x hx
    induction hx with
    | target => exact ⟨fuel, merges, hm⟩
    | back hx hne hbefore ih =>
      obtain ⟨fuel, merges, hm⟩ := ih
      obtain ⟨cost', hc'⟩ := h.onPath_distance hc hx
      cases fuel with
      | zero => cases hm
      | succ fuel =>
        obtain ⟨rest, hr⟩ := reconstruct_parent hne
          ((h.parent_iff hne hc').mpr hbefore) hm
        exact ⟨fuel, rest, hr⟩
  rintro ⟨x, u, hx, hxs, hu, hxu, hux⟩
  obtain ⟨fuel, merges, hm⟩ := hp x hx
  obtain ⟨cost₁, hc₁⟩ := h.onPath_distance hc hx
  obtain ⟨cost₂, hc₂⟩ := h.onPath_distance hc (hx.back hxs hxu)
  rw [reconstruct_mutual hxs hu ((h.parent_iff hxs hc₁).mpr hxu)
    ((h.parent_iff hu hc₂).mpr hux)] at hm
  cases hm

end walkBack

end EmuFlow.Coarsener
