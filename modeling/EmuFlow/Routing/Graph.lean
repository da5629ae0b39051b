import EmuFlow.Routing.Constraints

/-!
# The directed graph of a platform

`build_directed_graph` of `emuflow/routing.py`: one arc for each legal use of an available link,
and one capacity record for each capacity key. Directions of a link that share their capacity have
one key; the key is a text built from ids, so two links can have the same one.
-/

namespace EmuFlow.Routing

open Check SortedSet List

def maximumSchedulableTdmRatio (constraints : RouteConstraints) (latencyCycles : Nat) :
    Result Nat := do
  let usableSlots : Int := constraints.frameSlots - RUNTIME_BARRIER_SLOTS - latencyCycles
  raiseIf (usableSlots ≤ 0) (ValidationError
    "TDM schedule has no transmit slot whose data arrives before the frame commit")
  let usable := usableSlots.toNat
  let quantum := constraints.tdmRatioQuantum
  let maximum := if quantum ≤ usable then usable / quantum * quantum else 1
  raiseIf (maximum < constraints.tdmMinRatio) (ValidationError
    ("TDM schedule has no discrete ratio between the configured minimum and the " ++
      "frame-arrival deadline"))
  return maximum

/-! ## arcs and capacities -/

def sharesCapacity (link : BoardLink) (sharedCapacityLinks : List String) : Prop :=
  link.banks = none ∧ (link.direction = .half_duplex ∨ link.id ∈ sharedCapacityLinks)

instance (link : BoardLink) (shared : List String) : Decidable (sharesCapacity link shared) :=
  inferInstanceAs (Decidable (_ ∧ _))

def capacityKey (link : BoardLink) (source sink : String) (sharedCapacityLinks : List String) :
    String :=
  if sharesCapacity link sharedCapacityLinks then link.id ++ ":shared"
  else link.id ++ ":" ++ source ++ "->" ++ sink

structure BankMetadata where
  bankGroup : String
  bankCount : Nat
  wiresPerBank : Nat
  oppositeCapacityKey : String
  deriving DecidableEq

structure Arc where
  link : String
  source : String
  sink : String
  latencyCycles : Nat
  capacityKey : String
  bank : Option BankMetadata

structure CapacityRecord where
  key : String
  link : String
  direction : String
  capacityBits : Nat
  bank : Option BankMetadata
  deriving DecidableEq

def Arc.key (arc : Arc) : ArcKey := (arc.link, arc.source, arc.sink)

/-- `arcs` and `capacity_records`, in insertion order. -/
structure DirectedGraph where
  arcs : List Arc
  capacities : List CapacityRecord

def DirectedGraph.findArc (g : DirectedGraph) (key : ArcKey) : Option Arc :=
  Keyed.find Arc.key g.arcs key

def bankMetadata (link : BoardLink) (source sink : String) (shared : List String) :
    Option BankMetadata :=
  link.banks.map fun banks =>
    { bankGroup := link.id
      bankCount := banks.bankCount
      wiresPerBank := banks.wiresPerBank
      oppositeCapacityKey := capacityKey link sink source shared }

def arcOf (constraints : RouteConstraints) (use : BoardLink × String × String) : Arc :=
  { link := use.1.id
    source := use.2.1
    sink := use.2.2
    latencyCycles := use.1.latencyCycles
    capacityKey := capacityKey use.1 use.2.1 use.2.2 constraints.sharedCapacityLinks
    bank := bankMetadata use.1 use.2.1 use.2.2 constraints.sharedCapacityLinks }

def usableSlots (constraints : RouteConstraints) (reserveArrivalAndCommit : Bool)
    (link : BoardLink) : Result Nat :=
  if link.id ∈ constraints.sllLinks then .ok 1
  else if reserveArrivalAndCommit then maximumSchedulableTdmRatio constraints link.latencyCycles
  else .ok constraints.frameSlots

def addArc (constraints : RouteConstraints) (reserveArrivalAndCommit : Bool) (g : DirectedGraph)
    (use : BoardLink × String × String) : Result DirectedGraph := do
  let arc := arcOf constraints use
  let g := { g with arcs := g.arcs ++ [arc] }
  if arc.capacityKey ∈ g.capacities.map CapacityRecord.key then return g
  let slots ← usableSlots constraints reserveArrivalAndCommit use.1
  raiseIf (slots = 0)
    (.validation "link %r has no transmit slot whose data arrives before the frame commit"
      [use.1.id])
  return { g with capacities := g.capacities ++
    [{ key := arc.capacityKey
       link := use.1.id
       direction :=
         if sharesCapacity use.1 constraints.sharedCapacityLinks then "shared"
         else use.2.1 ++ "->" ++ use.2.2
       capacityBits := use.1.transportBitsPerCyclePerDirection * slots
       bank := arc.bank }] }

def directedUses (platform : Platform) (constraints : RouteConstraints) :
    List (BoardLink × String × String) :=
  (platform.links.filter fun link => link.id ∉ constraints.unavailableLinks).flatMap fun link =>
    link.directions.map fun d => (link, d.1, d.2)

/-- `build_directed_graph`, without the adjacency that only the router reads. -/
def buildDirectedGraph (platform : Platform) (constraints : RouteConstraints)
    (reserveArrivalAndCommit : Bool) : Result DirectedGraph :=
  (directedUses platform constraints).foldlM (addArc constraints reserveArrivalAndCommit)
    { arcs := [], capacities := [] }

/-! ## what a built graph contains -/

variable {constraints : RouteConstraints}

theorem mem_directedUses {platform : Platform}
    {link : BoardLink} {source sink : String} :
    (link, source, sink) ∈ directedUses platform constraints ↔
      link ∈ platform.links ∧ link.id ∉ constraints.unavailableLinks ∧
        (source, sink) ∈ link.directions := by
  simp only [directedUses, mem_flatMap, mem_filter, decide_eq_true_eq, mem_map, Prod.mk.injEq]
  constructor
  · rintro ⟨l, ⟨hl, hu⟩, d, hd, rfl, rfl, rfl⟩
    exact ⟨hl, hu, hd⟩
  · rintro ⟨hl, hu, hd⟩
    exact ⟨link, ⟨hl, hu⟩, (source, sink), hd, rfl, rfl, rfl⟩

theorem addArc_eq_ok {reserve : Bool} {g g' : DirectedGraph}
    {use : BoardLink × String × String} (h : addArc constraints reserve g use = .ok g') :
    g'.arcs = g.arcs ++ [arcOf constraints use] ∧
      (∀ key ∈ g.capacities.map CapacityRecord.key, key ∈ g'.capacities.map CapacityRecord.key) ∧
      (arcOf constraints use).capacityKey ∈ g'.capacities.map CapacityRecord.key := by
  unfold addArc at h
  dsimp only at h
  split at h
  · next hm =>
    rw [← Except.ok.inj h]
    exact ⟨rfl, fun _ hk => hk, hm⟩
  · obtain ⟨slots, -, h⟩ := bind_eq_ok.mp h
    obtain ⟨-, h⟩ := raiseIf_bind.mp h
    rw [← Except.ok.inj h]
    refine ⟨rfl, fun key hk => ?_, ?_⟩
    · simp only [map_append, List.mem_append]
      exact Or.inl hk
    · simp

theorem foldlM_addArc {reserve : Bool} :
    ∀ {uses : List (BoardLink × String × String)} {g g' : DirectedGraph},
      uses.foldlM (addArc constraints reserve) g = .ok g' →
      g'.arcs = g.arcs ++ uses.map (arcOf constraints) ∧
        (∀ key ∈ g.capacities.map CapacityRecord.key, key ∈ g'.capacities.map CapacityRecord.key) ∧
        ∀ use ∈ uses, (arcOf constraints use).capacityKey ∈ g'.capacities.map CapacityRecord.key
  | [], g, g', h => by
    rw [foldlM_nil] at h
    rw [← Except.ok.inj h]
    exact ⟨by simp, fun _ hk => hk, fun _ hu => absurd hu not_mem_nil⟩
  | use :: uses, g, g', h => by
    rw [foldlM_cons] at h
    obtain ⟨g₁, h₁, h⟩ := bind_eq_ok.mp h
    obtain ⟨ha₁, hkp₁, hn₁⟩ := addArc_eq_ok h₁
    obtain ⟨ha, hkp, hn⟩ := foldlM_addArc h
    refine ⟨by rw [ha, ha₁]; simp, fun key hk => hkp key (hkp₁ key hk), ?_⟩
    rintro u hu
    rcases mem_cons.mp hu with rfl | hu
    · exact hkp _ hn₁
    · exact hn u hu

section Built

variable {platform : Platform} {constraints : RouteConstraints} {reserve : Bool}
  {g : DirectedGraph} (h : buildDirectedGraph platform constraints reserve = .ok g)
include h

theorem buildDirectedGraph_arcs :
    g.arcs = (directedUses platform constraints).map (arcOf constraints) := by
  simpa using (foldlM_addArc h).1

variable {arc : Arc}

theorem mem_capacities_of_arc (ha : arc ∈ g.arcs) :
    arc.capacityKey ∈ g.capacities.map CapacityRecord.key := by
  rw [buildDirectedGraph_arcs h] at ha
  obtain ⟨use, hu, rfl⟩ := mem_map.mp ha
  exact (foldlM_addArc h).2.2 use hu

theorem exists_link_of_arc (ha : arc ∈ g.arcs) :
    ∃ link ∈ platform.links, link.id ∉ constraints.unavailableLinks ∧
      (arc.source, arc.sink) ∈ link.directions ∧
      arc = arcOf constraints (link, arc.source, arc.sink) := by
  rw [buildDirectedGraph_arcs h] at ha
  obtain ⟨⟨link, source, sink⟩, hu, rfl⟩ := mem_map.mp ha
  obtain ⟨hl, hun, hd⟩ := mem_directedUses.mp hu
  exact ⟨link, hl, hun, hd, rfl⟩

/-- No two arcs have one key. -/
theorem arc_key_injOn {a b : Arc} (ha : a ∈ g.arcs) (hb : b ∈ g.arcs) (hk : a.key = b.key) :
    a = b := by
  obtain ⟨la, hl, -, -, he⟩ := exists_link_of_arc h ha
  obtain ⟨lb, hlb, -, -, heb⟩ := exists_link_of_arc h hb
  simp only [Arc.key, Prod.mk.injEq] at hk
  have hid : la.id = lb.id := by
    have h1 : a.link = la.id := by rw [he]; rfl
    have h2 : b.link = lb.id := by rw [heb]; rfl
    rw [← h1, ← h2, hk.1]
  rw [he, heb, inj_on_of_nodup_map platform.link_ids_nodup hl hlb hid, hk.2.1, hk.2.2]

theorem findArc_of_mem (har : arc ∈ g.arcs) : g.findArc arc.key = some arc := by
  obtain ⟨a, ha⟩ : ∃ a, Keyed.find Arc.key g.arcs arc.key = some a :=
    Keyed.exists_find (mem_map_of_mem har)
  rw [DirectedGraph.findArc, ha, arc_key_injOn h (Keyed.mem_of_find ha) har (Keyed.key_of_find ha)]

theorem findArc_of_use {link : BoardLink} {source sink : String} (hl : link ∈ platform.links)
    (hu : link.id ∉ constraints.unavailableLinks) (hd : (source, sink) ∈ link.directions) :
    g.findArc (link.id, source, sink) = some (arcOf constraints (link, source, sink)) := by
  have hm : arcOf constraints (link, source, sink) ∈ g.arcs := by
    rw [buildDirectedGraph_arcs h]
    exact mem_map_of_mem (mem_directedUses.mpr ⟨hl, hu, hd⟩)
  exact findArc_of_mem h hm

theorem exists_link_of_findArc {linkId source sink : String}
    (hf : g.findArc (linkId, source, sink) = some arc) :
    ∃ link ∈ platform.links, link.id = linkId ∧ link.id ∉ constraints.unavailableLinks ∧
      (source, sink) ∈ link.directions ∧ arc = arcOf constraints (link, source, sink) := by
  obtain ⟨link, hl, hu, hd, he⟩ := exists_link_of_arc h (Keyed.mem_of_find hf)
  have hk := Keyed.key_of_find hf
  simp only [Arc.key, Prod.mk.injEq] at hk
  obtain ⟨h1, h2, h3⟩ := hk
  rw [h2, h3] at hd he
  refine ⟨link, hl, ?_, hu, hd, he⟩
  rw [← h1, he]
  rfl

end Built

end EmuFlow.Routing
