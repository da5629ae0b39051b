import EmuFlow.Lib.ConflictBatches
import EmuFlow.TdmRatio.Validate

/-!
# The native router's model

The part of `_prepare_native_model` in `emuflow/timing_routing.py` that the conflict batches read:
arcs with their capacity domains, banks and opposite arcs, and the timing paths as lists of demand
positions. Where the demands have exactly the rounds 0 and 1 and no exact contract, every arc is
there once for each round.
-/

namespace EmuFlow.RerouteBatches

open Check SortedSet Routing List

structure StaPath where
  id : String
  clockPeriodNs : ℚ
  slackNs : ℚ
  cutNets : List String

/-- The checks `load_sta_paths` makes on the paths. -/
structure StaPaths where
  paths : List StaPath
  normalization : TimingNormalization
  ids_nodup : (paths.map StaPath.id).Nodup
  cutNets_ne_nil : ∀ path ∈ paths, path.cutNets ≠ []

/-! ## the model -/

/-- The round of a layer; `none` is the only layer of a model without rounds. -/
abbrev Layer := Option Int

/-- A node of a layer, written `round{layer}:{fpga}` in the source. -/
abbrev Node := Layer × String

structure NativeArc where
  source : Node
  sink : Node
  capacityDomain : Nat
  /-- `opposite_arc`, where it is not `-1`. -/
  oppositeArc : Option Nat
  bankCount : Nat
  deriving DecidableEq

structure NativePath where
  clockPeriodNs : ℚ
  baselineSlackNs : ℚ
  demands : List Nat
  deriving DecidableEq

structure NativeModel where
  demands : List Demand
  layered : Bool
  /-- `arc_rounds` with `arc_keys`. -/
  arcKeys : List (Layer × ArcKey)
  arcs : List NativeArc
  paths : List NativePath
  normalization : TimingNormalization
  deriving DecidableEq

/-- `int(demand.get("transport_round", 0))`. -/
def demandRound (demand : Demand) : Int := demand.transportRound.getD 0

def assignmentHasStaticExactContract (assignment : Assignment) : Bool :=
  assignment.semanticContract.isSome || assignment.semanticContractIndexed

def activeRounds (demands : List Demand) : List Int := sortedSet (demands.map demandRound)

def layeredRounds (assignment : Assignment) (demands : List Demand) : Bool :=
  !assignmentHasStaticExactContract assignment && activeRounds demands == [0, 1]

def nodeLayers (layered : Bool) (demands : List Demand) : List Layer :=
  if layered then (activeRounds demands).map some else [none]

def demandLayer (layered : Bool) (demand : Demand) : Layer :=
  if layered then some (demandRound demand) else none

def nativeCapacityKeys (layers : List Layer) (graph : DirectedGraph) : List (String × Layer) :=
  layers.flatMap fun layer =>
    (sorted (graph.capacities.map CapacityRecord.key)).map fun key => (key, layer)

def arcOrder (arc : Arc) := lex arc.link (lex arc.source arc.sink)

def orderedArcs (layers : List Layer) (graph : DirectedGraph) : List (Layer × Arc) :=
  layers.flatMap fun layer => (sortedBy arcOrder graph.arcs).map fun arc => (layer, arc)

/-- `arc_index.get(key, -1)`. -/
def findArcIndex (arcKeys : List (Layer × ArcKey)) (key : Layer × ArcKey) : Option Nat :=
  if key ∈ arcKeys then some (arcKeys.idxOf key) else none

/-- One entry of `native_arcs`. -/
def nativeArc (capacityKeys : List (String × Layer)) (arcKeys : List (Layer × ArcKey))
    (item : Layer × Arc) : NativeArc :=
  { source := (item.1, item.2.source)
    sink := (item.1, item.2.sink)
    capacityDomain := capacityKeys.idxOf (item.2.capacityKey, item.1)
    oppositeArc := findArcIndex arcKeys (item.1, item.2.link, item.2.sink, item.2.source)
    bankCount := (item.2.bank.map BankMetadata.bankCount).getD 0 }

def demandIndex (demands : List Demand) (net : String) : Result Nat :=
  if net ∈ demands.map Demand.net then .ok ((demands.map Demand.net).idxOf net)
  else .error (.keyError net)

/-- One entry of `native_paths`. -/
def nativePath (demands : List Demand) (path : StaPath) : Result NativePath := do
  let indexes ← path.cutNets.mapM (demandIndex demands)
  return { clockPeriodNs := path.clockPeriodNs
           baselineSlackNs := path.slackNs
           demands := indexes }

def prepareNativeModel (assignment : Assignment) (platform : Platform)
    (constraints : RouteConstraints) (timingPaths : StaPaths) : Result NativeModel := do
  let demands ← demandsFromAssignment assignment platform
  let graph ← buildDirectedGraph platform constraints
    (assignmentHasStaticExactContract assignment)
  let layered := layeredRounds assignment demands
  let ordered := orderedArcs (nodeLayers layered demands) graph
  let arcKeys := ordered.map fun item => (item.1, item.2.key)
  let paths ← timingPaths.paths.mapM (nativePath demands)
  return { demands := demands
           layered := layered
           arcKeys := arcKeys
           arcs := ordered.map
             (nativeArc (nativeCapacityKeys (nodeLayers layered demands) graph) arcKeys)
           paths := paths
           normalization := timingPaths.normalization }

/-! ## the parts of a prepared model -/

structure PreparedModel (assignment : Assignment) (platform : Platform)
    (constraints : RouteConstraints) (timingPaths : StaPaths) (model : NativeModel)
    (graph : DirectedGraph) : Prop where
  demands_eq : demandsFromAssignment assignment platform = .ok model.demands
  built : buildDirectedGraph platform constraints (assignmentHasStaticExactContract assignment) =
    .ok graph
  layered_eq : model.layered = layeredRounds assignment model.demands
  arcKeys_eq : model.arcKeys = (orderedArcs (nodeLayers model.layered model.demands) graph).map
    fun item => (item.1, item.2.key)
  arcs_eq : model.arcs = (orderedArcs (nodeLayers model.layered model.demands) graph).map
    (nativeArc (nativeCapacityKeys (nodeLayers model.layered model.demands) graph) model.arcKeys)
  paths_eq : timingPaths.paths.mapM (nativePath model.demands) = .ok model.paths
  normalization_eq : model.normalization = timingPaths.normalization

theorem prepareNativeModel_eq_ok {assignment : Assignment} {platform : Platform}
    {constraints : RouteConstraints} {timingPaths : StaPaths} {model : NativeModel}
    (h : prepareNativeModel assignment platform constraints timingPaths = .ok model) :
    ∃ graph, PreparedModel assignment platform constraints timingPaths model graph := by
  obtain ⟨demands, hd, h⟩ := bind_eq_ok.mp h
  obtain ⟨graph, hg, h⟩ := bind_eq_ok.mp h
  obtain ⟨paths, hpt, h⟩ := bind_eq_ok.mp h
  cases h
  exact ⟨graph, hd, hg, rfl, rfl, rfl, hpt, rfl⟩

section

variable {assignment : Assignment} {platform : Platform} {constraints : RouteConstraints}
  {timingPaths : StaPaths} {model : NativeModel} {graph : DirectedGraph}
  (hp : PreparedModel assignment platform constraints timingPaths model graph)

theorem mem_orderedArcs {layers : List Layer} {graph : DirectedGraph} {layer : Layer} {arc : Arc} :
    (layer, arc) ∈ orderedArcs layers graph ↔ layer ∈ layers ∧ arc ∈ graph.arcs := by
  simp [orderedArcs]

theorem capacityDomain_inj {layers : List Layer} {key key' : String} {layer layer' : Layer}
    (hl : layer ∈ layers) (hk : key ∈ graph.capacities.map CapacityRecord.key)
    (h : (nativeCapacityKeys layers graph).idxOf (key, layer) =
      (nativeCapacityKeys layers graph).idxOf (key', layer')) : key = key' ∧ layer = layer' := by
  have hm : (key, layer) ∈ nativeCapacityKeys layers graph := by
    unfold nativeCapacityKeys
    refine mem_flatMap.mpr ⟨layer, hl, mem_map.mpr ⟨key, ?_, rfl⟩⟩
    exact mem_sorted.mpr hk
  exact Prod.mk.inj ((idxOf_inj hm).mp h)

include hp

theorem mem_arcs {index : Nat} {arc : NativeArc} (h : model.arcs[index]? = some arc) :
    ∃ layer graphArc, layer ∈ nodeLayers model.layered model.demands ∧ graphArc ∈ graph.arcs ∧
      model.arcKeys[index]? = some (layer, graphArc.key) ∧
      arc = nativeArc (nativeCapacityKeys (nodeLayers model.layered model.demands) graph)
        model.arcKeys (layer, graphArc) := by
  rw [hp.arcs_eq, List.getElem?_map, Option.map_eq_some_iff] at h
  obtain ⟨⟨layer, graphArc⟩, hg, rfl⟩ := h
  obtain ⟨hl, ha⟩ := mem_orderedArcs.mp (mem_of_getElem? hg)
  refine ⟨layer, graphArc, hl, ha, ?_, rfl⟩
  rw [hp.arcKeys_eq, List.getElem?_map, hg]
  rfl

theorem sink_layer {index : Nat} {arc : NativeArc} (h : model.arcs[index]? = some arc) :
    arc.sink.1 = arc.source.1 := by
  obtain ⟨layer, graphArc, -, -, -, rfl⟩ := mem_arcs hp h
  rfl

theorem opposite_domain {layer : Layer} {graphArc : Arc} {bank : BankMetadata}
    (hly : layer ∈ nodeLayers model.layered model.demands) (hac : graphArc ∈ graph.arcs)
    (hbk : graphArc.bank = some bank) :
    ∃ index arc, findArcIndex model.arcKeys (layer, graphArc.link, graphArc.sink,
        graphArc.source) = some index ∧ model.arcs[index]? = some arc ∧
      arc.capacityDomain = (nativeCapacityKeys (nodeLayers model.layered model.demands)
        graph).idxOf (bank.oppositeCapacityKey, layer) ∧
      bank.oppositeCapacityKey ∈ graph.capacities.map CapacityRecord.key ∧
      0 < bank.bankCount := by
  obtain ⟨link, hlk, hav, hdr, heq⟩ := exists_link_of_arc hp.built hac
  have hln : link.banks.map (fun banks => (
      { bankGroup := link.id
        bankCount := banks.bankCount
        wiresPerBank := banks.wiresPerBank
        oppositeCapacityKey := capacityKey link graphArc.sink graphArc.source
          constraints.sharedCapacityLinks } : BankMetadata)) = some bank := by
    rw [← hbk, heq]
    rfl
  obtain ⟨banks, hbn, rfl⟩ := Option.map_eq_some_iff.mp hln
  -- a banked link runs in both directions, so the opposite use is an arc too
  have hos : (graphArc.sink, graphArc.source) ∈ link.directions := by
    rw [BoardLink.directions_of_banks hbn] at hdr ⊢
    rcases mem_cons.mp hdr with hd | hd
    · rw [← hd]
      simp
    · rw [mem_singleton] at hd
      rw [← Prod.swap_swap link.endpoints, ← hd]
      simp
  have hid : graphArc.link = link.id := by
    rw [heq]
    rfl
  have hfn := findArc_of_use hp.built hlk hav hos
  have hmm : arcOf constraints (link, graphArc.sink, graphArc.source) ∈ graph.arcs :=
    Keyed.mem_of_find hfn
  have hky : (layer, graphArc.link, graphArc.sink, graphArc.source) ∈ model.arcKeys := by
    rw [hp.arcKeys_eq, hid]
    exact mem_map.mpr ⟨(layer, arcOf constraints (link, graphArc.sink, graphArc.source)),
      mem_orderedArcs.mpr ⟨hly, hmm⟩, rfl⟩
  have hlt := idxOf_lt_length_of_mem hky
  have hle : model.arcs.length = model.arcKeys.length := by
    rw [hp.arcs_eq, hp.arcKeys_eq, length_map, length_map]
  obtain ⟨arc, har⟩ : ∃ arc, model.arcs[model.arcKeys.idxOf
      (layer, graphArc.link, graphArc.sink, graphArc.source)]? = some arc :=
    ⟨_, List.getElem?_eq_getElem (hle ▸ hlt)⟩
  refine ⟨_, arc, if_pos hky, har, ?_, ?_, banks.bankCount_pos⟩
  · obtain ⟨layer', graphArc', -, hac', hgt, rfl⟩ := mem_arcs hp har
    rw [List.getElem?_eq_getElem hlt, getElem_idxOf hlt] at hgt
    obtain ⟨rfl, hk⟩ := Prod.mk.inj (Option.some.inj hgt)
    have hsm : graphArc' = arcOf constraints (link, graphArc.sink, graphArc.source) := by
      refine arc_key_injOn hp.built hac' hmm ?_
      rw [← hk, hid]
      rfl
    rw [hsm]
    rfl
  · exact mem_capacities_of_arc hp.built hmm

end

end EmuFlow.RerouteBatches
