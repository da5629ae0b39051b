import EmuFlow.RerouteBatches.Reconstruct

/-!
# When the conflict batches are reproduced

The native batches and the reconstructed ones are greedy colourings of the same paths. They agree
where the tolerance of the native comparison decides nothing and where no capacity domain of the
native model stands for two transport rounds.
-/

namespace EmuFlow.RerouteBatches

open Check SortedSet Routing ConflictBatches List

variable {constraints : RouteConstraints}

theorem exists_addArc (hps : 0 < constraints.frameSlots)
    (g : DirectedGraph) (use : BoardLink × String × String) :
    ∃ g', addArc constraints false g use = .ok g' := by
  unfold addArc
  dsimp only
  split
  · exact ⟨_, rfl⟩
  · -- a frame has a slot, with or without a super long line
    obtain ⟨slots, hs, hne⟩ : ∃ slots, usableSlots constraints false use.1 = .ok slots ∧
        slots ≠ 0 := by
      unfold usableSlots
      split
      · exact ⟨1, rfl, one_ne_zero⟩
      · exact ⟨constraints.frameSlots, rfl, hps.ne'⟩
    rw [hs]
    refine exists_bind_eq_ok.mpr ⟨slots, rfl, ?_⟩
    exact ⟨_, raiseIf_bind.mpr ⟨hne, rfl⟩⟩

theorem exists_buildDirectedGraph (platform : Platform) (hps : 0 < constraints.frameSlots) :
    ∃ g, buildDirectedGraph platform constraints false = .ok g := by
  unfold buildDirectedGraph
  generalize ({ arcs := [], capacities := [] } : DirectedGraph) = g
  generalize directedUses platform constraints = uses
  induction uses generalizing g with
  | nil => exact ⟨g, rfl⟩
  | cons use uses ih =>
    obtain ⟨g', hg'⟩ := exists_addArc hps g use
    rw [foldlM_cons, hg']
    exact ih g'

theorem findArc_congr {platform : Platform} {reserve : Bool}
    {graph poolGraph : DirectedGraph}
    (hg : buildDirectedGraph platform constraints reserve = .ok graph)
    (hpool : buildDirectedGraph platform constraints false = .ok poolGraph) (key : ArcKey) :
    poolGraph.findArc key = graph.findArc key := by
  unfold DirectedGraph.findArc
  rw [buildDirectedGraph_arcs hg, buildDirectedGraph_arcs hpool]

theorem CandidateGenerator.mem_all (g : CandidateGenerator) : g ∈ CandidateGenerator.all := by
  cases g <;> decide

section

variable {model : NativeModel} {constraints : RouteConstraints} {columns : Columns model}

theorem mem_masterCandidates {c : PoolCandidate}
    (h : c ∈ (writtenPool model constraints columns).candidates.filter
      fun c => c.generator ≠ .refinedFinal) :
    ∃ (position : Nat) (d : Demand) (g : CandidateGenerator),
      model.demands[position]? = some d ∧ c =
        poolCandidate model d (.master g) ((columns.routes g).getD position []) := by
  obtain ⟨hmm, hm⟩ := mem_filter.mp h
  obtain ⟨⟨d, position⟩, hi, hmm⟩ := mem_flatMap.mp hmm
  have hd := List.mk_mem_zipIdx_iff_getElem?.mp hi
  rcases List.mem_append.mp hmm with hmm | hmm
  · obtain ⟨g, -, hg⟩ := mem_filterMap.mp hmm
    split at hg
    · exact ⟨position, d, g, hd, (Option.some.inj hg).symm⟩
    · cases hg
  · rw [mem_singleton] at hmm
    rw [hmm] at hm
    exact absurd hm (by simp [poolCandidate])

theorem masterCandidate_mem {position : Nat} {demand : Demand}
    (hd : model.demands[position]? = some demand) {g : CandidateGenerator} {index : Nat}
    (hi : index ∈ (columns.routes g).getD position []) :
    poolCandidate model demand (.master g) ((columns.routes g).getD position []) ∈
      (writtenPool model constraints columns).candidates.filter
        fun c => c.generator ≠ .refinedFinal := by
  refine mem_filter.mpr ⟨mem_flatMap.mpr ⟨(demand, position),
    List.mk_mem_zipIdx_iff_getElem?.mpr hd, ?_⟩, by simp [poolCandidate]⟩
  refine mem_append_left _ (mem_filterMap.mpr ⟨g, g.mem_all, ?_⟩)
  have hl := columns.routes_length g
  split at hl
  · next hg => rw [if_pos ⟨hg, hl⟩]
  · rw [length_eq_zero_iff.mp hl] at hi
    simp at hi

end

section

variable {assignment : Assignment} {platform : Platform} {constraints : RouteConstraints}
  {timingPaths : StaPaths} {model : NativeModel} {graph poolGraph : DirectedGraph}
  (hp : PreparedModel assignment platform constraints timingPaths model graph)
  (hpool : buildDirectedGraph platform constraints false = .ok poolGraph)
include hp hpool

theorem mapM_edgeLabels (round : Int) : ∀ {route : List Nat},
    (∀ index ∈ route, ∃ arc, model.arcs[index]? = some arc) →
    ∃ labels, (treeEdgesOf model route).mapM (edgeLabels poolGraph round) = .ok labels ∧
      labels.flatten = (route.flatMap (arcCapacityKeys model graph)).map
        fun key => domainLabel key round
  | [], _ => ⟨[], rfl, rfl⟩
  | index :: route, h => by
    obtain ⟨arc, ha⟩ := h index mem_cons_self
    obtain ⟨layer, graphArc, -, hm, hky, -⟩ := mem_arcs hp ha
    obtain ⟨labels, hl, hfl⟩ := mapM_edgeLabels round fun i hi => h i (mem_cons_of_mem _ hi)
    have hf : graph.findArc graphArc.key = some graphArc := findArc_of_mem hp.built hm
    have he : edgeLabels poolGraph round ⟨graphArc.link, graphArc.source, graphArc.sink⟩ =
        .ok ((graphArcKeys graphArc).map fun key => domainLabel key round) := by
      refine bind_eq_ok.mpr ⟨graphArc, ?_, rfl⟩
      show lookupOrRaise graphArc.link (poolGraph.findArc graphArc.key) = _
      rw [findArc_congr hp.built hpool, hf]
      rfl
    refine ⟨(graphArcKeys graphArc).map (fun key => domainLabel key round) :: labels, ?_, ?_⟩
    · have hc : treeEdgesOf model (index :: route) =
          ⟨graphArc.link, graphArc.source, graphArc.sink⟩ :: treeEdgesOf model route := by
        simp [treeEdgesOf, hky, Arc.key]
      rw [hc]
      exact mapM_cons_eq_ok.mpr ⟨_, labels, he, hl, rfl⟩
    · have hk : arcCapacityKeys model graph index = graphArcKeys graphArc := by
        simp [arcCapacityKeys, hky, hf]
      rw [flatten_cons, flatMap_cons, map_append, hfl, hk]

variable {columns : Columns model}

theorem candidateDomains_eq {position : Nat} {demand : Demand}
    (hd : model.demands[position]? = some demand) (g : CandidateGenerator) :
    candidateDomains model.demands poolGraph
        (poolCandidate model demand (.master g) ((columns.routes g).getD position [])) =
      .ok (position, (((columns.routes g).getD position []).flatMap
        (arcCapacityKeys model graph)).map fun key => domainLabel key (demandRound demand)) := by
  have hm : demand.id ∈ model.demands.map Demand.id := mem_map_of_mem (mem_of_getElem? hd)
  have ha : ∀ index ∈ (columns.routes g).getD position [], ∃ arc,
      model.arcs[index]? = some arc := fun index hi =>
    (candidate_arc hp hd hi).imp fun _ h => h.1
  obtain ⟨labels, hl, hf⟩ := mapM_edgeLabels hp hpool (demandRound demand) ha
  refine raiseIf_bind.mpr ⟨not_not.mpr hm, bind_eq_ok.mpr ⟨labels, hl, ?_⟩⟩
  have hps : (model.demands.map Demand.id).idxOf demand.id = position := by
    obtain ⟨hlt, hg⟩ := List.getElem?_eq_some_iff.mp hd
    have hlt' : position < (model.demands.map Demand.id).length := by rwa [length_map]
    have hid : (model.demands.map Demand.id)[position] = demand.id := by
      rw [getElem_map, hg]
    rw [← hid]
    exact (demandIds_nodup hp.demands_eq).idxOf_getElem position hlt'
  rw [hf]
  show Except.ok ((model.demands.map Demand.id).idxOf demand.id, _) = _
  rw [hps]

theorem mem_labelsOf {domains : List (Nat × List String)}
    (hdm : domainsByDemand model.demands poolGraph
      (writtenPool model constraints columns) = .ok domains)
    {position : Nat} {demand : Demand} (hd : model.demands[position]? = some demand)
    {label : String} : label ∈ labelsOf domains position ↔
      ∃ key ∈ demandKeys model columns graph position,
        label = domainLabel key (demandRound demand) := by
  unfold labelsOf
  rw [mem_flatMap]
  constructor
  · rintro ⟨e, he, hl⟩
    obtain ⟨he, hps⟩ := mem_filter.mp he
    obtain ⟨c, hc, heq⟩ := exists_of_mem_mapM hdm he
    obtain ⟨position', demand', g, hd', rfl⟩ := mem_masterCandidates hc
    rw [candidateDomains_eq hp hpool hd' g] at heq
    cases heq
    obtain rfl : position' = position := by simpa using hps
    obtain rfl : demand' = demand := by
      rw [hd'] at hd
      exact Option.some.inj hd
    obtain ⟨key, hk, rfl⟩ := mem_map.mp hl
    exact ⟨key, mem_flatMap.mpr ⟨g, g.mem_all, hk⟩, rfl⟩
  · rintro ⟨key, hk, rfl⟩
    obtain ⟨g, -, hk⟩ := mem_flatMap.mp hk
    obtain ⟨index, hi, -⟩ := mem_flatMap.mp hk
    obtain ⟨e, he, heq⟩ := mem_mapM_of_mem hdm (masterCandidate_mem hd hi)
    rw [candidateDomains_eq hp hpool hd g] at heq
    cases heq
    refine ⟨_, mem_filter.mpr ⟨he, by simp⟩, ?_⟩
    exact mem_map.mpr ⟨key, hk, rfl⟩

theorem exists_domainsByDemand (columns : Columns model) :
    ∃ domains, domainsByDemand model.demands poolGraph
      (writtenPool model constraints columns) = .ok domains := by
  refine exists_mapM_eq_ok fun c hc => ?_
  obtain ⟨position, d, g, hd, rfl⟩ := mem_masterCandidates hc
  exact ⟨_, candidateDomains_eq hp hpool hd g⟩

end

section

variable {assignment : Assignment} {platform : Platform} {constraints : RouteConstraints}
  {timingPaths : StaPaths} {model : NativeModel} {graph : DirectedGraph}
  (hp : PreparedModel assignment platform constraints timingPaths model graph)
include hp

variable {path : NativePath}

theorem nativePath_of_mem (h : path ∈ model.paths) : ∃ timingPath ∈ timingPaths.paths,
      timingPath.cutNets.mapM (demandIndex model.demands) = .ok path.demands := by
  obtain ⟨timingPath, hm, hpt⟩ := exists_of_mem_mapM hp.paths_eq h
  obtain ⟨indexes, hi, hpt⟩ := bind_eq_ok.mp hpt
  cases hpt
  exact ⟨timingPath, hm, hi⟩

theorem exists_demand_of_mem (h : path ∈ model.paths) {position : Nat}
    (hm : position ∈ path.demands) : ∃ demand, model.demands[position]? = some demand := by
  obtain ⟨timingPath, -, hi⟩ := nativePath_of_mem hp h
  obtain ⟨net, -, hn⟩ := exists_of_mem_mapM hi hm
  unfold demandIndex at hn
  split at hn
  · next hk =>
    have hlt := idxOf_lt_length_of_mem hk
    rw [Except.ok.inj hn, length_map] at hlt
    exact ⟨_, List.getElem?_eq_getElem hlt⟩
  · cases hn

theorem demands_ne_nil (h : path ∈ model.paths) : path.demands ≠ [] := by
  obtain ⟨timingPath, hm, hi⟩ := nativePath_of_mem hp h
  intro hnl
  cases hn : timingPath.cutNets with
  | nil => exact timingPaths.cutNets_ne_nil timingPath hm hn
  | cons net nets =>
    rw [hnl, hn] at hi
    obtain ⟨_, _, -, -, hc⟩ := mapM_cons_eq_ok.mp hi
    cases hc

theorem mapM_pathDemands : timingPaths.paths.mapM (pathDemands model.demands) =
    .ok (model.paths.map fun path => sortedSet path.demands) := by
  refine mapM_eq_ok_of_mapM (fun timingPath path hpt => ?_) hp.paths_eq
  obtain ⟨indexes, hi, hpt⟩ := bind_eq_ok.mp hpt
  cases hpt
  exact bind_eq_ok.mpr ⟨indexes, hi, rfl⟩

end

theorem pathsByDemand_sorted (paths : List NativePath) :
    pathsByDemand (paths.map fun path => sortedSet path.demands) =
      pathsByDemand (paths.map NativePath.demands) := by
  funext demand
  unfold pathsByDemand
  rw [length_map, length_map]
  refine filter_congr fun index _ => ?_
  rw [Bool.eq_iff_iff, contains_iff_mem, contains_iff_mem]
  cases hpt : paths[index]? with
  | none => simp [hpt]
  | some path => simp [hpt]

/-- No capacity domain is used by candidate routes of demands of different rounds. -/
def RoundsApart (model : NativeModel) (columns : Columns model) : Prop :=
  ∀ (i j : Nat) (d e : Demand), model.demands[i]? = some d → model.demands[j]? = some e →
    ∀ domain ∈ demandDomains model columns i, domain ∈ demandDomains model columns j →
      demandRound d = demandRound e

def DomainRel (model : NativeModel) (columns : Columns model) (graph : DirectedGraph)
    (domain : Nat) (label : String) : Prop :=
  ∃ (position : Nat) (demand : Demand), model.demands[position]? = some demand ∧
    ∃ key ∈ demandKeys model columns graph position,
      domain = (nativeCapacityKeys (nodeLayers model.layered model.demands) graph).idxOf
        (key, demandLayer model.layered demand) ∧
      label = domainLabel key (demandRound demand)

section

variable {assignment : Assignment} {platform : Platform} {constraints : RouteConstraints}
  {timingPaths : StaPaths} {model : NativeModel} {graph : DirectedGraph}
  (hp : PreparedModel assignment platform constraints timingPaths model graph)
include hp

omit hp in
theorem demandLayer_mem {position : Nat} {demand : Demand}
    (h : model.demands[position]? = some demand) :
    demandLayer model.layered demand ∈ nodeLayers model.layered model.demands := by
  unfold demandLayer nodeLayers
  split
  · refine mem_map.mpr ⟨demandRound demand, ?_, rfl⟩
    exact mem_sortedSet.mpr (mem_map_of_mem (mem_of_getElem? h))
  · exact mem_singleton_self _

theorem round_nonneg {position : Nat} {demand : Demand}
    (h : model.demands[position]? = some demand) : 0 ≤ demandRound demand :=
  ((demandsFromAssignment_spec hp.demands_eq).1 demand (mem_of_getElem? h)).round_nonneg

theorem domainRel_biUnique {columns : Columns model} (hrn : RoundsApart model columns) :
    Relator.BiUnique (DomainRel model columns graph) := by
  constructor
  · rintro n m s ⟨i, d, hd, key, hk, rfl, rfl⟩ ⟨j, e, he, key', hk', rfl, hl⟩
    obtain ⟨rfl, hr⟩ := domainLabel_inj (round_nonneg hp hd) (round_nonneg hp he) hl
    rw [demandLayer, demandLayer, hr]
  · rintro n s t ⟨i, d, hd, key, hk, rfl, rfl⟩ ⟨j, e, he, key', hk', hdm, rfl⟩
    have hr := hrn i j d e hd he _ ((mem_demandDomains hp hd).mpr ⟨key, hk, rfl⟩)
      ((mem_demandDomains hp he).mpr ⟨key', hk', hdm⟩)
    obtain ⟨rfl, -⟩ := capacityDomain_inj (demandLayer_mem hd) (demandKeys_known hp hd hk) hdm
    rw [hr]

end

/-! ## the work and the record of a path -/

theorem getD_sortedDemands (paths : List NativePath) (path : Nat) :
    (paths.map fun item => sortedSet item.demands).getD path [] =
      sortedSet ((paths.map NativePath.demands).getD path []) := by
  cases hpt : paths[path]? with
  | none =>
    simp [getD_eq_getElem?_getD, hpt]
    rfl
  | some item => simp [getD_eq_getElem?_getD, hpt]

section

variable {assignment : Assignment} {platform : Platform} {constraints : RouteConstraints}
  {timingPaths : StaPaths} {model : NativeModel} {graph poolGraph : DirectedGraph}
  (hp : PreparedModel assignment platform constraints timingPaths model graph)
  (hpool : buildDirectedGraph platform constraints false = .ok poolGraph)
include hp

theorem exists_demand_of_selected {path position : Nat}
    (h : position ∈ (model.paths.map NativePath.demands).getD path []) :
    ∃ demand, model.demands[position]? = some demand := by
  cases hpt : model.paths[path]? with
  | none => simp [getD_eq_getElem?_getD, hpt] at h
  | some item =>
    rw [getD_eq_getElem?_getD, List.getElem?_map, hpt] at h
    exact exists_demand_of_mem hp (mem_of_getElem? hpt) h

include hpool in
theorem rerouteWork_rel {columns : Columns model} {domains : List (Nat × List String)}
    (hdn : domainsByDemand model.demands poolGraph
      (writtenPool model constraints columns) = .ok domains) (path : Nat) :
    (rerouteWork model columns path).Rel (Sum.LiftRel (DomainRel model columns graph) Eq)
      (batchRecord domains (model.paths.map fun item => sortedSet item.demands) path) := by
  refine ⟨rfl, ?_, ?_⟩
  · intro resource hm
    rcases List.mem_append.mp hm with hm | hm
    · obtain ⟨domain, hdm, rfl⟩ := mem_map.mp hm
      obtain ⟨position, hps, hdm⟩ := mem_flatMap.mp hdm
      obtain ⟨d, hd⟩ := exists_demand_of_selected hp (mem_sortedSet.mp hps)
      obtain ⟨key, hk, rfl⟩ := (mem_demandDomains hp hd).mp hdm
      refine ⟨.inl (domainLabel key (demandRound d)), mem_append_left _
        (mem_map_of_mem (mem_sortedSet.mpr (mem_flatMap.mpr ⟨position, ?_, ?_⟩))),
        .inl ⟨position, d, hd, key, hk, rfl, rfl⟩⟩
      · rwa [getD_sortedDemands]
      · exact (mem_labelsOf hp hpool hdn hd).mpr ⟨key, hk, rfl⟩
    · obtain ⟨affected, ha, rfl⟩ := mem_map.mp hm
      refine ⟨.inr affected, mem_append_right _ (mem_map_of_mem (mem_sortedSet.mpr ?_)), .inr rfl⟩
      simpa only [getD_sortedDemands, pathsByDemand_sorted] using ha
  · intro resource hm
    rcases List.mem_append.mp hm with hm | hm
    · obtain ⟨label, hl, rfl⟩ := mem_map.mp hm
      obtain ⟨position, hps, hl⟩ := mem_flatMap.mp (mem_sortedSet.mp hl)
      rw [getD_sortedDemands] at hps
      obtain ⟨d, hd⟩ := exists_demand_of_selected hp (mem_sortedSet.mp hps)
      obtain ⟨key, hk, rfl⟩ := (mem_labelsOf hp hpool hdn hd).mp hl
      exact ⟨.inl _, mem_append_left _ (mem_map_of_mem (mem_flatMap.mpr
        ⟨position, hps, (mem_demandDomains hp hd).mpr ⟨key, hk, rfl⟩⟩)),
        .inl ⟨position, d, hd, key, hk, rfl, rfl⟩⟩
    · obtain ⟨affected, ha, rfl⟩ := mem_map.mp hm
      refine ⟨.inr affected, mem_append_right _ (mem_map_of_mem ?_), .inr rfl⟩
      simpa only [getD_sortedDemands, pathsByDemand_sorted] using mem_sortedSet.mp ha

theorem recordSlack_eq (path : Nat) : recordSlack timingPaths path = slackAt model path := by
  have hf : model.paths.map (fun item => (item.clockPeriodNs, item.baselineSlackNs)) =
      timingPaths.paths.map fun item => (item.clockPeriodNs, item.slackNs) := by
    refine map_of_mapM (fun timingPath item hi => ?_) hp.paths_eq
    obtain ⟨_, -, hi⟩ := bind_eq_ok.mp hi
    rw [← Except.ok.inj hi]
  have ha := congrArg (fun l : List (ℚ × ℚ) => l[path]?) hf
  simp only [List.getElem?_map] at ha
  unfold recordSlack slackAt
  cases hpt : timingPaths.paths[path]? with
  | none =>
    rw [hpt] at ha
    simp [Option.map_eq_none_iff.mp ha]
  | some timingPath =>
    rw [hpt] at ha
    obtain ⟨item, hi, hpr⟩ := Option.map_eq_some_iff.mp ha
    obtain ⟨hc, hs⟩ := Prod.mk.inj hpr
    -- the ids are distinct, so the last path of the id is the path itself
    have hfn : Keyed.find StaPath.id timingPaths.paths.reverse timingPath.id =
        some timingPath := by
      refine Keyed.find_of_mem ?_ (mem_reverse.mpr (mem_of_getElem? hpt))
      rw [map_reverse, nodup_reverse]
      exact timingPaths.ids_nodup
    simp [nativeSlack, hfn, hi, baselineSlack, hc, hs, hp.normalization_eq]

theorem filter_rerouteOrder : (rerouteOrder model).filter (fun path =>
    (model.paths[path]?.map NativePath.demands).getD [] ≠ []) = rerouteOrder model := by
  refine filter_eq_self.mpr fun path hpt => ?_
  rw [rerouteOrder, mem_insertionSort, mem_range] at hpt
  rw [List.getElem?_eq_getElem hpt]
  simpa using demands_ne_nil hp (getElem_mem hpt)

end

theorem maximumBatch_eq {ι ρ ρ' : Type} {R : ρ → ρ' → Prop} {batches : List (List (Task ι ρ))}
    {batches' : List (List (Task ι ρ'))}
    (h : Forall₂ (Forall₂ (Task.Rel R)) batches batches') :
    maximumBatch batches = maximumBatch batches' := by
  unfold maximumBatch
  induction h with
  | nil => rfl
  | cons hb _ ih => rw [map_cons, map_cons, foldr_cons, foldr_cons, ih, hb.length_eq]

theorem liftRel_biUnique {α β γ : Type} {R : α → β → Prop} (h : Relator.BiUnique R) :
    Relator.BiUnique (Sum.LiftRel R (Eq : γ → γ → Prop)) := by
  constructor
  · rintro a b c (ha | ha) hb
    · cases hb with
      | inl hb => rw [h.1 ha hb]
    · cases hb with
      | inr hb => rw [ha, hb]
  · rintro a b c (hab | hab) ha
    · cases ha with
      | inl ha => rw [h.2 hab ha]
    · cases ha with
      | inr ha => rw [← hab, ha]

/-- The links `l0`, `l1` and `l2` from each FPGA to the next. -/
def fourFpgaLine : Platform :=
  { name := "line"
    fpgas := [⟨"fa"⟩, ⟨"fb"⟩, ⟨"fc"⟩, ⟨"fd"⟩]
    links := [oneLaneLink "l0" "fa" "fb" 1 (by decide), oneLaneLink "l1" "fb" "fc" 1 (by decide),
      oneLaneLink "l2" "fc" "fd" 1 (by decide)]
    fpgas_ne_nil := by decide
    fpga_ids_nodup := by decide
    link_ids_nodup := by decide
    endpoints_known := by decide }

def lineNets : Assignment :=
  { platform := "line"
    cutNets := [("n0", "fa", "fb"), ("n1", "fa", "fb"), ("n2", "fb", "fc"), ("n3", "fb", "fc"),
      ("n4", "fc", "fd"), ("n5", "fc", "fd")].map fun n =>
        { net := n.1, sourceFpgas := [n.2.1], sinkFpgas := [n.2.2] } }

def lineConstraints : RouteConstraints :=
  { schema := SYSTEM_ROUTE_CONSTRAINTS_SCHEMA
    frameSlots := 32
    maxIterations := 20
    maxRouteHops := none
    unavailableLinks := []
    linkDelayNs := []
    directedLinkDelayNs := []
    sllLinks := []
    sharedCapacityLinks := []
    treeEdgeSumTdm := false
    hardSllCapacity := false
    rerouteRounds := 8
    lambdaLoad := 2
    lambdaTiming := 4
    lambdaHistory := 1
    lambdaTdm := 1 / 10
    tdmRatioQuantum := 8
    tdmMinRatio := 1 }

def unitNormalization : TimingNormalization :=
  { positiveSlackScaleNs := 1, negativeSlackScaleNs := 1, maxClockPeriodNs := 1 }

def linePaths (slack : Nat → ℚ) : StaPaths :=
  { paths := [⟨"p0", 1, slack 0, ["n0"]⟩, ⟨"p1", 1, slack 1, ["n1", "n2"]⟩,
      ⟨"p2", 1, slack 2, ["n3", "n4"]⟩, ⟨"p3", 1, slack 3, ["n5"]⟩]
    normalization := unitNormalization
    ids_nodup := by simp
    cutNets_ne_nil := by simp }

def lineDemands : List Demand :=
  [("d000000", "n0", "fa", "fb"), ("d000001", "n1", "fa", "fb"), ("d000002", "n2", "fb", "fc"),
    ("d000003", "n3", "fb", "fc"), ("d000004", "n4", "fc", "fd"),
    ("d000005", "n5", "fc", "fd")].map fun d =>
      { id := d.1, net := d.2.1, source := d.2.2.1, sinks := [d.2.2.2], widthBits := 1 }

def lineModel (slack : Nat → ℚ) : NativeModel :=
  { demands := lineDemands
    layered := false
    arcKeys := [(none, "l0", "fa", "fb"), (none, "l1", "fb", "fc"), (none, "l2", "fc", "fd")]
    arcs := [⟨(none, "fa"), (none, "fb"), 0, none, 0⟩, ⟨(none, "fb"), (none, "fc"), 1, none, 0⟩,
      ⟨(none, "fc"), (none, "fd"), 2, none, 0⟩]
    paths := [⟨1, slack 0, [0]⟩, ⟨1, slack 1, [1, 2]⟩, ⟨1, slack 2, [3, 4]⟩, ⟨1, slack 3, [5]⟩]
    normalization := unitNormalization }

def lineRoutes : List (List Nat) := [[0], [0], [1], [1], [2], [2]]

theorem lineRoutes_grown (slack : Nat → ℚ) (index : Nat) (demand : Demand) (route : List Nat)
    (hd : (lineModel slack).demands[index]? = some demand)
    (hr : lineRoutes[index]? = some route) : RouteOf (lineModel slack) demand route := by
  have hz : (demand, route) ∈ lineDemands.zip lineRoutes := by
    refine mem_of_getElem? (i := index) ?_
    rw [List.getElem?_zip_eq_some]
    exact ⟨hd, hr⟩
  simp only [lineDemands, lineRoutes, map_cons, map_nil, zip_cons_cons,
    zip_nil_right, mem_cons, not_mem_nil, or_false, Prod.mk.injEq] at hz
  intro arc ha
  rcases hz with ⟨rfl, rfl⟩ | ⟨rfl, rfl⟩ | ⟨rfl, rfl⟩ | ⟨rfl, rfl⟩ | ⟨rfl, rfl⟩ | ⟨rfl, rfl⟩ <;>
    obtain rfl := mem_singleton.mp ha <;> exact ⟨_, rfl, .source⟩

def lineColumns (slack : Nat → ℚ) : Columns (lineModel slack) :=
  { generated := fun _ => true
    routes := fun _ => lineRoutes
    final := lineRoutes
    demands_ne_nil := cons_ne_nil _ _
    routes_length := fun _ => rfl
    final_length := rfl
    routes_grown := fun _ => lineRoutes_grown slack
    final_grown := lineRoutes_grown slack }

def wholeSlack (path : Nat) : ℚ := path

/-- Slacks in the order `0`, `3`, `1`, `2`, less than the tolerance apart. -/
def nearSlack (path : Nat) : ℚ := ([0, 2, 3, 1].getD path 0) / 10000000000000

end EmuFlow.RerouteBatches
