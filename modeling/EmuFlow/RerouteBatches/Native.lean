import EmuFlow.RerouteBatches.NativeModel

/-!
# The native conflict batches

`build_reroute_batches` of `native/tlr_router.cpp`: the timing paths in the order of their
normalized baseline slacks, each with the capacity domains of its candidate routes and the paths it
shares a demand with, batched without conflicts.
-/

namespace EmuFlow.RerouteBatches

open Check SortedSet Routing ConflictBatches Option

/-- `kEps`. -/
def kEps : ℚ := 1 / 1000000000000

def FIRST_FIT_LIMIT : Nat := 4096

/-! ## candidate columns -/

inductive CandidateGenerator where
  | shortestPath
  | delayDemandBalanced
  | nearestTerminalSteiner
  | directedMetricClosure
  | shallowLight
  | adaptiveHop
  deriving DecidableEq

/-- The six `alternatives`, in order. -/
def CandidateGenerator.all : List CandidateGenerator :=
  [.shortestPath, .delayDemandBalanced, .nearestTerminalSteiner, .directedMetricClosure,
    .shallowLight, .adaptiveHop]

/-- A node that the arcs of a route reach from `source`. -/
inductive Grown (model : NativeModel) (route : List Nat) (source : Node) : Node → Prop where
  | source : Grown model route source source
  | step {index : Nat} {arc : NativeArc} (hmem : index ∈ route)
      (harc : model.arcs[index]? = some arc) (h : Grown model route source arc.source) :
      Grown model route source arc.sink

def demandSource (model : NativeModel) (demand : Demand) : Node :=
  (demandLayer model.layered demand, demand.source)

def RouteOf (model : NativeModel) (demand : Demand) (route : List Nat) : Prop :=
  ∀ index ∈ route, ∃ arc, model.arcs[index]? = some arc ∧
    Grown model route (demandSource model demand) arc.source

/-- The complete candidate columns of a run; the final routes come from these and from rerouting. -/
structure Columns (model : NativeModel) where
  generated : CandidateGenerator → Bool
  routes : CandidateGenerator → List (List Nat)
  final : List (List Nat)
  demands_ne_nil : model.demands ≠ []
  routes_length : ∀ g, (routes g).length = if generated g then model.demands.length else 0
  final_length : final.length = model.demands.length
  routes_grown : ∀ g (index : Nat) demand route, model.demands[index]? = some demand →
    (routes g)[index]? = some route → RouteOf model demand route
  final_grown : ∀ (index : Nat) demand route, model.demands[index]? = some demand →
    final[index]? = some route → RouteOf model demand route

/-- `paths_by_demand[demand]`, in order. -/
def pathsByDemand (demandsOf : List (List Nat)) (demand : Nat) : List Nat :=
  (List.range demandsOf.length).filter fun path => (demandsOf.getD path []).contains demand

def arcDomains (model : NativeModel) (index : Nat) : List Nat :=
  match model.arcs[index]? with
  | none => []
  | some arc =>
    arc.capacityDomain ::
      if 0 < arc.bankCount then
        ((arc.oppositeArc.bind fun opposite => model.arcs[opposite]?).map
          NativeArc.capacityDomain).toList
      else []

def demandDomains (model : NativeModel) (columns : Columns model) (demand : Nat) : List Nat :=
  CandidateGenerator.all.flatMap fun g =>
    if (columns.routes g).length ≠ model.demands.length then []
    else ((columns.routes g).getD demand []).flatMap (arcDomains model)

def rerouteWork (model : NativeModel) (columns : Columns model) (path : Nat) :
    Task Nat (Nat ⊕ Nat) :=
  let demandsOf := model.paths.map NativePath.demands
  let demands := sortedSet (demandsOf.getD path [])
  { id := path
    uses := (demands.flatMap (demandDomains model columns)).map Sum.inl ++
      (demands.flatMap (pathsByDemand demandsOf)).map Sum.inr }

/-! ## the order of the paths -/

def baselineSlack (normalization : TimingNormalization) (path : NativePath) : ℚ :=
  TdmRatio.normalizedSlack path.clockPeriodNs path.baselineSlackNs normalization

def slackAt (model : NativeModel) (path : Nat) : ℚ :=
  ((model.paths[path]?).map (baselineSlack model.normalization)).getD 0

/-- The comparison of the sort: by slack where the slacks differ by more than `kEps`. -/
def slackBefore (slack : Nat → ℚ) (left right : Nat) : Bool :=
  if kEps < |slack left - slack right| then slack left < slack right else left < right

/-- `order`, by a stable sort. Where the comparison is not transitive, the standard leaves open
what the sort returns. -/
def rerouteOrder (model : NativeModel) : List Nat :=
  (List.range model.paths.length).insertionSort fun a b =>
    slackBefore (slackAt model) b a = false

def buildRerouteBatches (model : NativeModel) (columns : Columns model) :
    List (List (Task Nat (Nat ⊕ Nat))) :=
  batchesOf FIRST_FIT_LIMIT
    (((rerouteOrder model).filter fun path =>
      (model.paths[path]?.map NativePath.demands).getD [] ≠ []).map (rerouteWork model columns))

/-- No path has a slack that exceeds the slack of a later path, but by `kEps` at most. -/
def NoNearInversion (slack : Nat → ℚ) (paths : Nat) : Prop :=
  ∀ later < paths, ∀ earlier < later,
    ¬ (slack later < slack earlier ∧ slack earlier - slack later ≤ kEps)

theorem slackBefore_iff {slack : Nat → ℚ} {paths : Nat} (h : NoNearInversion slack paths)
    {a b : Nat} (ha : a < paths) (hb : b < paths) :
    slackBefore slack b a = false ↔ lex (slack a) a ≤ lex (slack b) b := by
  unfold slackBefore lex
  rw [Prod.Lex.toLex_le_toLex]
  split
  · next hf =>
    have hne : slack b ≠ slack a := fun heq => by
      rw [heq, sub_self, abs_zero] at hf
      exact absurd hf (by norm_num [kEps])
    rw [decide_eq_false_iff_not, not_lt]
    exact ⟨fun hle => Or.inl (lt_of_le_of_ne hle hne.symm), fun ho => ho.elim le_of_lt
      fun heq => heq.1.le⟩
  · next hn =>
    rw [decide_eq_false_iff_not, not_lt]
    have hc := abs_le.mp (not_lt.mp hn)
    constructor
    · intro hle
      -- the earlier path does not have the larger slack
      rcases Nat.lt_or_eq_of_le hle with hlt | rfl
      · have hsl : slack a ≤ slack b := by
          by_contra hgt
          exact h b hb a hlt ⟨not_le.mp hgt, by linarith [hc.1]⟩
        rcases lt_or_eq_of_le hsl with hs | hs
        · exact Or.inl hs
        · exact Or.inr ⟨hs, hle⟩
      · exact Or.inr ⟨rfl, le_rfl⟩
    · rintro (hlt | ⟨-, hle⟩)
      · by_contra hgt
        exact h a ha b (not_le.mp hgt) ⟨hlt, by linarith [hc.2]⟩
      · exact hle

/-- Without near slacks the order is the one by slack and index. -/
theorem rerouteOrder_eq {model : NativeModel}
    (h : NoNearInversion (slackAt model) model.paths.length) :
    rerouteOrder model = sortedBy (fun path => lex (slackAt model path) path)
      (List.range model.paths.length) := by
  unfold rerouteOrder sortedBy
  have hm := List.map_insertionSort (fun a b => slackBefore (slackAt model) b a = false)
    (fun a b => lex (slackAt model a) a ≤ lex (slackAt model b) b) id
    (List.range model.paths.length) fun a ha b hb =>
      slackBefore_iff h (List.mem_range.mp ha) (List.mem_range.mp hb)
  simpa using hm

/-! ## the domains of a demand -/

def graphArcKeys (arc : Arc) : List String :=
  arc.capacityKey :: (arc.bank.map BankMetadata.oppositeCapacityKey).toList

def arcCapacityKeys (model : NativeModel) (graph : DirectedGraph) (index : Nat) : List String :=
  ((model.arcKeys[index]?.bind fun key => graph.findArc key.2).map graphArcKeys).getD []

def demandKeys (model : NativeModel) (columns : Columns model) (graph : DirectedGraph)
    (demand : Nat) : List String :=
  CandidateGenerator.all.flatMap fun g =>
    ((columns.routes g).getD demand []).flatMap (arcCapacityKeys model graph)

section

variable {assignment : Assignment} {platform : Platform} {constraints : RouteConstraints}
  {timingPaths : StaPaths} {model : NativeModel} {graph : DirectedGraph}
  (hp : PreparedModel assignment platform constraints timingPaths model graph)
include hp

theorem grown_layer {route : List Nat} {source node : Node} (h : Grown model route source node) :
    node.1 = source.1 := by
  induction h with
  | source => rfl
  | step _ harc _ ih => rw [sink_layer hp harc, ih]

variable {index : Nat}

theorem mem_arcDomains {arc : NativeArc} (harc : model.arcs[index]? = some arc)
    {domain : Nat} : domain ∈ arcDomains model index ↔
      ∃ key ∈ arcCapacityKeys model graph index, domain = (nativeCapacityKeys
        (nodeLayers model.layered model.demands) graph).idxOf (key, arc.source.1) := by
  obtain ⟨layer, graphArc, hl, hmem, hk, rfl⟩ := mem_arcs hp harc
  have hf : graph.findArc graphArc.key = some graphArc := findArc_of_mem hp.built hmem
  unfold arcDomains arcCapacityKeys
  rw [harc, hk, bind_some, hf]
  cases hb : graphArc.bank with
  | none => simp [nativeArc, graphArcKeys, hb]
  | some bank =>
    obtain ⟨opposite, oppositeArc, hi, hg, hd, -, hps⟩ :=
      opposite_domain hp hl hmem hb
    simp [nativeArc, graphArcKeys, hb, hi, hg, hd, hps]

theorem arcCapacityKeys_known {arc : NativeArc}
    (harc : model.arcs[index]? = some arc) {key : String}
    (h : key ∈ arcCapacityKeys model graph index) :
    key ∈ graph.capacities.map CapacityRecord.key := by
  obtain ⟨layer, graphArc, hl, hmem, hky, rfl⟩ := mem_arcs hp harc
  have hf : graph.findArc graphArc.key = some graphArc := findArc_of_mem hp.built hmem
  unfold arcCapacityKeys at h
  rw [hky, bind_some, hf, map_some, getD_some, graphArcKeys,
    List.mem_cons] at h
  rcases h with rfl | h
  · exact mem_capacities_of_arc hp.built hmem
  · rw [mem_toList, map_eq_some_iff] at h
    obtain ⟨bank, hb, rfl⟩ := h
    obtain ⟨_, _, -, -, -, hk, -⟩ := opposite_domain hp hl hmem hb
    exact hk

variable {columns : Columns model} {demand : Demand} {position : Nat}

theorem candidate_arc {g : CandidateGenerator} (hd : model.demands[position]? = some demand)
    (hmem : index ∈ (columns.routes g).getD position []) :
    ∃ arc, model.arcs[index]? = some arc ∧ arc.source.1 = demandLayer model.layered demand := by
  cases hr : (columns.routes g)[position]? with
  | none =>
    rw [List.getD_eq_getElem?_getD, hr] at hmem
    cases hmem
  | some route =>
    rw [List.getD_eq_getElem?_getD, hr, getD_some] at hmem
    obtain ⟨arc, harc, hg⟩ :=
      columns.routes_grown g position demand route hd hr index hmem
    exact ⟨arc, harc, grown_layer hp hg⟩

theorem mem_demandDomains (hd : model.demands[position]? = some demand) {domain : Nat} :
    domain ∈ demandDomains model columns position ↔
      ∃ key ∈ demandKeys model columns graph position, domain = (nativeCapacityKeys
        (nodeLayers model.layered model.demands) graph).idxOf
          (key, demandLayer model.layered demand) := by
  simp only [demandDomains, demandKeys, List.mem_flatMap]
  constructor
  · rintro ⟨g, hg, hmem⟩
    split at hmem
    · cases hmem
    · obtain ⟨index, hi, hmem⟩ := List.mem_flatMap.mp hmem
      obtain ⟨arc, harc, hl⟩ := candidate_arc hp hd hi
      obtain ⟨key, hk, rfl⟩ := (mem_arcDomains hp harc).mp hmem
      exact ⟨key, ⟨g, hg, index, hi, hk⟩, by rw [hl]⟩
  · rintro ⟨key, ⟨g, hg, index, hi, hk⟩, rfl⟩
    obtain ⟨arc, harc, hl⟩ := candidate_arc hp hd hi
    have hgn : (columns.routes g).length = model.demands.length := by
      rw [columns.routes_length g]
      split
      · rfl
      · next hn =>
        -- a generator without routes has no arcs
        have hln := columns.routes_length g
        rw [if_neg hn] at hln
        rw [List.length_eq_zero_iff.mp hln] at hi
        simp at hi
    refine ⟨g, hg, ?_⟩
    rw [if_neg (not_not.mpr hgn)]
    exact List.mem_flatMap.mpr ⟨index, hi, (mem_arcDomains hp harc).mpr
      ⟨key, hk, by rw [hl]⟩⟩

theorem demandKeys_known (hd : model.demands[position]? = some demand) {key : String}
    (h : key ∈ demandKeys model columns graph position) :
    key ∈ graph.capacities.map CapacityRecord.key := by
  simp only [demandKeys, List.mem_flatMap] at h
  obtain ⟨g, -, index, hi, hk⟩ := h
  obtain ⟨arc, harc, -⟩ := candidate_arc hp hd hi
  exact arcCapacityKeys_known hp harc hk

end

end EmuFlow.RerouteBatches
