import EmuFlow.Platform
import EmuFlow.Lib.SortedSet

/-!
# Route constraints

`normalize_route_constraints` of `emuflow/routing.py`: the defaults, the checks and the canonical
form of the constraints a routes artifact and a schedule carry.
-/

namespace EmuFlow.Routing

open Check SortedSet

def SYSTEM_ROUTE_CONSTRAINTS_SCHEMA : String := "emuflow.system-route-constraints/v1"

def RUNTIME_BARRIER_SLOTS : Nat := 1

/-- `(link_id, source, sink)`. -/
abbrev ArcKey := String × String × String

instance arcKeyLawful : LawfulBEq ArcKey := inferInstance

/-- The constraints object of an artifact; an absent key is `none`. -/
structure RawConstraints where
  schema : Option String := none
  frameSlots : Option Int := none
  maxIterations : Option Int := none
  maxRouteHops : Option Int := none
  unavailableLinks : Option (List String) := none
  linkDelayNs : Option (List (String × ℚ)) := none
  directedLinkDelayNs : Option (List (ArcKey × ℚ)) := none
  sllLinks : Option (List String) := none
  sharedCapacityLinks : Option (List String) := none
  rerouteRounds : Option Int := none
  lambdaLoad : Option ℚ := none
  lambdaTiming : Option ℚ := none
  lambdaHistory : Option ℚ := none
  lambdaTdm : Option ℚ := none
  tdmRatioQuantum : Option Int := none
  tdmMinRatio : Option Int := none
  treeEdgeSumTdm : Option Bool := none
  hardSllCapacity : Option Bool := none
  deriving DecidableEq

structure RouteConstraints where
  schema : String
  frameSlots : Nat
  maxIterations : Nat
  maxRouteHops : Option Nat
  unavailableLinks : List String
  linkDelayNs : List (String × ℚ)
  directedLinkDelayNs : List (ArcKey × ℚ)
  sllLinks : List String
  sharedCapacityLinks : List String
  treeEdgeSumTdm : Bool
  hardSllCapacity : Bool
  rerouteRounds : Nat
  lambdaLoad : ℚ
  lambdaTiming : ℚ
  lambdaHistory : ℚ
  lambdaTdm : ℚ
  tdmRatioQuantum : Nat
  tdmMinRatio : Nat
  deriving DecidableEq

/-! ## the checks -/

/-- `dict(sorted(link_delays.items()))`. -/
def sortedLinkDelays : List (String × ℚ) → List (String × ℚ) := sortedBy Prod.fst

def sortedDirectedDelays : List (ArcKey × ℚ) → List (ArcKey × ℚ) :=
  sortedBy fun d => lex d.1.1 (lex d.1.2.1 d.1.2.2)

def legalArcs (platform : Platform) : List ArcKey :=
  platform.links.flatMap fun link => link.directions.map fun d => (link.id, d.1, d.2)

def positiveInt (field : String) (value : Option Int) (default : Nat) : Result Nat :=
  match value with
  | none => .ok default
  | some v => do
    raiseIf (v ≤ 0) (.validation "route constraints.%s: expected a positive integer" [field])
    return v.toNat

def nonNegativeInt (field : String) (value : Option Int) (default : Nat) : Result Nat :=
  match value with
  | none => .ok default
  | some v => do
    raiseIf (v < 0) (.validation "route constraints.%s: expected a non-negative integer" [field])
    return v.toNat

def nonNegativeNumber (field : String) (value : Option ℚ) (default : ℚ) : Result ℚ :=
  match value with
  | none => .ok default
  | some v => do
    raiseIf (v < 0) (.validation "route constraints.%s: expected a non-negative number" [field])
    return v

def knownLinks (field : String) (platform : Platform) (value : Option (List String)) :
    Result (List String) := do
  let links := value.getD []
  raiseIf (∃ id ∈ links, id ∉ platform.links.map BoardLink.id)
    (.validation "route constraints.%s: unknown links %s"
      [field, toString (sortedSet (links.filter fun id => id ∉ platform.links.map BoardLink.id))])
  return links

/-- One item of `link_delay_ns`. -/
def checkLinkDelay (delay : String × ℚ) : Result Unit :=
  raiseIf (delay.2 < 0)
    (.validation "route constraints.link_delay_ns.%s: expected a non-negative number" [delay.1])

/-- One item of `directed_link_delay_ns`. -/
def checkDirectedDelay (platform : Platform) (delay : ArcKey × ℚ) : Result Unit := do
  raiseIf (delay.1 ∉ legalArcs platform)
    (.validation "route constraints.directed_link_delay_ns: unknown arc %s"
      [delay.1.1, delay.1.2.1, delay.1.2.2])
  raiseIf (delay.2 < 0)
    (.validation "route constraints.directed_link_delay_ns: invalid delay for %s"
      [delay.1.1, delay.1.2.1, delay.1.2.2])

/-- `math.isclose(a, b, abs_tol=1e-9)`, with its default relative tolerance. -/
def isClose (a b : ℚ) : Prop :=
  |a - b| ≤ max ((1 / 1000000000) * max |a| |b|) (1 / 1000000000)

instance (a b : ℚ) : Decidable (isClose a b) := inferInstanceAs (Decidable (_ ≤ _))

def checkLinkModel (sllLinks : List String) (linkDelays : List (String × ℚ))
    (directedDelays : List (ArcKey × ℚ)) (link : BoardLink) : Result Unit := do
  raiseIf (link.banks ≠ none ∧ link.id ∈ sllLinks)
    (ValidationError "a shared-bank FPGA interconnect cannot be an SLL link")
  match link.tdmDelayModel with
  | none => return ()
  | some model =>
    raiseIf
      ((∃ d ∈ linkDelays, d.1 = link.id ∧ ¬ isClose d.2 (model.delayNs 1)) ∨
        ∃ d ∈ directedDelays, d.1.1 = link.id ∧ ¬ isClose d.2 (model.delayNs 1))
      (.validation ("link %s: fixed delay override conflicts with its TDM ratio model; " ++
        "remove the stale override and use the BoardDB model") [link.id])

def normalizeRouteConstraints (value : Option RawConstraints) (platform : Platform) :
    Result RouteConstraints := do
  let raw := value.getD {}
  raiseIf (raw ≠ {} ∧ raw.schema ≠ some SYSTEM_ROUTE_CONSTRAINTS_SCHEMA)
    (.validation "route constraints.schema: expected %r, got %r"
      [SYSTEM_ROUTE_CONSTRAINTS_SCHEMA, raw.schema.getD "None"])
  let frameSlots ← positiveInt "frame_slots" raw.frameSlots 32
  let maxIterations ← positiveInt "max_iterations" raw.maxIterations 20
  raiseIf (∃ h ∈ raw.maxRouteHops, h ≤ 0)
    (ValidationError "route constraints.max_route_hops: expected null or a positive integer")
  let unavailableLinks ← knownLinks "unavailable_links" platform raw.unavailableLinks
  let linkDelays := raw.linkDelayNs.getD []
  raiseIf (∃ d ∈ linkDelays, d.1 ∉ platform.links.map BoardLink.id)
    (.validation "route constraints.link_delay_ns: unknown links %s"
      (sortedSet ((linkDelays.map Prod.fst).filter fun id => id ∉ platform.links.map BoardLink.id)))
  forM linkDelays checkLinkDelay
  let directedDelays := raw.directedLinkDelayNs.getD []
  forM directedDelays (checkDirectedDelay platform)
  let sllLinks ← knownLinks "sll_links" platform raw.sllLinks
  let sharedLinks ← knownLinks "shared_capacity_links" platform raw.sharedCapacityLinks
  let rerouteRounds ← nonNegativeInt "reroute_rounds" raw.rerouteRounds 8
  let lambdaLoad ← nonNegativeNumber "lambda_load" raw.lambdaLoad 2
  let lambdaTiming ← nonNegativeNumber "lambda_timing" raw.lambdaTiming 4
  let lambdaHistory ← nonNegativeNumber "lambda_history" raw.lambdaHistory 1
  let lambdaTdm ← nonNegativeNumber "lambda_tdm" raw.lambdaTdm (1 / 10)
  let ratioQuantum ← nonNegativeInt "tdm_ratio_quantum" raw.tdmRatioQuantum 8
  let minimumRatio ← nonNegativeInt "tdm_min_ratio" raw.tdmMinRatio 1
  raiseIf (ratioQuantum = 0)
    (ValidationError "route constraints.tdm_ratio_quantum: expected a positive integer")
  raiseIf (minimumRatio = 0)
    (ValidationError "route constraints.tdm_min_ratio: expected a positive integer")
  raiseIf (minimumRatio ≠ 1 ∧ minimumRatio % ratioQuantum ≠ 0)
    (ValidationError
      "route constraints.tdm_min_ratio: expected 1 or a multiple of tdm_ratio_quantum")
  raiseIf (frameSlots < minimumRatio)
    (ValidationError "route constraints.tdm_min_ratio: cannot exceed frame_slots")
  forM platform.links (checkLinkModel sllLinks linkDelays directedDelays)
  return { schema := SYSTEM_ROUTE_CONSTRAINTS_SCHEMA
           frameSlots := frameSlots
           maxIterations := maxIterations
           maxRouteHops := raw.maxRouteHops.map Int.toNat
           unavailableLinks := sortedSet unavailableLinks
           linkDelayNs := sortedLinkDelays linkDelays
           directedLinkDelayNs := sortedDirectedDelays directedDelays
           sllLinks := sortedSet sllLinks
           sharedCapacityLinks := sortedSet (sharedLinks ++
             (platform.links.filter fun l => l.capacitySharing = .shared_bidirectional).map
               BoardLink.id)
           treeEdgeSumTdm := raw.treeEdgeSumTdm.getD false
           hardSllCapacity := raw.hardSllCapacity.getD false
           rerouteRounds := rerouteRounds
           lambdaLoad := lambdaLoad
           lambdaTiming := lambdaTiming
           lambdaHistory := lambdaHistory
           lambdaTdm := lambdaTdm
           tdmRatioQuantum := ratioQuantum
           tdmMinRatio := minimumRatio }

/-! ## normalized records -/

/-- What holds of every normalized record. -/
structure RouteConstraints.WellFormed (c : RouteConstraints) (platform : Platform) : Prop where
  schema_eq : c.schema = SYSTEM_ROUTE_CONSTRAINTS_SCHEMA
  frameSlots_pos : 0 < c.frameSlots
  maxIterations_pos : 0 < c.maxIterations
  maxRouteHops_pos : ∀ h ∈ c.maxRouteHops, 0 < h
  unavailable_known : ∀ id ∈ c.unavailableLinks, id ∈ platform.links.map BoardLink.id
  unavailable_sorted : sortedSet c.unavailableLinks = c.unavailableLinks
  delays_known : ∀ d ∈ c.linkDelayNs, d.1 ∈ platform.links.map BoardLink.id
  delays_nonneg : ∀ d ∈ c.linkDelayNs, 0 ≤ d.2
  delays_sorted : sortedLinkDelays c.linkDelayNs = c.linkDelayNs
  directed_known : ∀ d ∈ c.directedLinkDelayNs, d.1 ∈ legalArcs platform
  directed_nonneg : ∀ d ∈ c.directedLinkDelayNs, 0 ≤ d.2
  directed_sorted : sortedDirectedDelays c.directedLinkDelayNs = c.directedLinkDelayNs
  sll_known : ∀ id ∈ c.sllLinks, id ∈ platform.links.map BoardLink.id
  sll_sorted : sortedSet c.sllLinks = c.sllLinks
  shared_known : ∀ id ∈ c.sharedCapacityLinks, id ∈ platform.links.map BoardLink.id
  shared_sorted : sortedSet c.sharedCapacityLinks = c.sharedCapacityLinks
  shared_boardDb : ∀ link ∈ platform.links, link.capacitySharing = .shared_bidirectional →
    link.id ∈ c.sharedCapacityLinks
  lambdas_nonneg : 0 ≤ c.lambdaLoad ∧ 0 ≤ c.lambdaTiming ∧ 0 ≤ c.lambdaHistory ∧ 0 ≤ c.lambdaTdm
  quantum_pos : 0 < c.tdmRatioQuantum
  minRatio_pos : 0 < c.tdmMinRatio
  minRatio_legal : c.tdmMinRatio = 1 ∨ c.tdmRatioQuantum ∣ c.tdmMinRatio
  minRatio_le : c.tdmMinRatio ≤ c.frameSlots
  link_models : forM platform.links
    (checkLinkModel c.sllLinks c.linkDelayNs c.directedLinkDelayNs) = .ok ()

theorem positiveInt_pos {field : String} {value : Option Int} {default n : Nat}
    (hd : 0 < default) (h : positiveInt field value default = .ok n) : 0 < n := by
  unfold positiveInt at h
  split at h
  · exact Except.ok.inj h ▸ hd
  · obtain ⟨hv, h⟩ := raiseIf_bind.mp h
    have hn := Except.ok.inj h
    omega

theorem nonNegativeNumber_nonneg {field : String} {value : Option ℚ} {default n : ℚ}
    (hd : 0 ≤ default) (h : nonNegativeNumber field value default = .ok n) : 0 ≤ n := by
  unfold nonNegativeNumber at h
  split at h
  · exact Except.ok.inj h ▸ hd
  · obtain ⟨hv, h⟩ := raiseIf_bind.mp h
    exact Except.ok.inj h ▸ not_lt.mp hv

theorem knownLinks_known {field : String} {platform : Platform} {value : Option (List String)}
    {links : List String} (h : knownLinks field platform value = .ok links) :
    ∀ id ∈ links, id ∈ platform.links.map BoardLink.id := by
  obtain ⟨hk, h⟩ := raiseIf_bind.mp h
  intro id hid
  by_contra hn
  exact hk ⟨id, Except.ok.inj h ▸ hid, hn⟩

theorem checkLinkModel_congr {sll sll' : List String} {delays delays' : List (String × ℚ)}
    {directed directed' : List (ArcKey × ℚ)} (hs : ∀ a, a ∈ sll' ↔ a ∈ sll)
    (hd : ∀ a, a ∈ delays' ↔ a ∈ delays) (hdd : ∀ a, a ∈ directed' ↔ a ∈ directed) :
    checkLinkModel sll' delays' directed' = checkLinkModel sll delays directed := by
  funext link
  simp only [checkLinkModel, hs, hd, hdd]

/-- Accepted constraints are well formed. -/
theorem normalizeRouteConstraints_wellFormed {value : Option RawConstraints} {platform : Platform}
    {c : RouteConstraints} (h : normalizeRouteConstraints value platform = .ok c) :
    c.WellFormed platform := by
  unfold normalizeRouteConstraints at h
  simp only [raiseIf_bind] at h
  obtain ⟨-, h⟩ := h
  obtain ⟨frameSlots, hfr, h⟩ := bind_eq_ok.mp h
  obtain ⟨maxIterations, hit, h⟩ := bind_eq_ok.mp h
  simp only [raiseIf_bind] at h
  obtain ⟨hhp, h⟩ := h
  obtain ⟨unavailable, hun, h⟩ := bind_eq_ok.mp h
  simp only [raiseIf_bind] at h
  obtain ⟨hdk, h⟩ := h
  obtain ⟨⟨⟩, hdn, h⟩ := bind_eq_ok.mp h
  obtain ⟨⟨⟩, hdr, h⟩ := bind_eq_ok.mp h
  obtain ⟨sll, hsl, h⟩ := bind_eq_ok.mp h
  obtain ⟨shared, hsr, h⟩ := bind_eq_ok.mp h
  obtain ⟨reroute, hrr, h⟩ := bind_eq_ok.mp h
  obtain ⟨load, hld, h⟩ := bind_eq_ok.mp h
  obtain ⟨timing, htm, h⟩ := bind_eq_ok.mp h
  obtain ⟨his, hhs, h⟩ := bind_eq_ok.mp h
  obtain ⟨tdm, htd, h⟩ := bind_eq_ok.mp h
  obtain ⟨quantum, hqn, h⟩ := bind_eq_ok.mp h
  obtain ⟨minimum, hmn, h⟩ := bind_eq_ok.mp h
  simp only [raiseIf_bind] at h
  obtain ⟨hq, hm, hlg, hle, h⟩ := h
  obtain ⟨⟨⟩, hmd, h⟩ := bind_eq_ok.mp h
  rw [← Except.ok.inj h]
  exact
    { schema_eq := rfl
      frameSlots_pos := positiveInt_pos (by decide) hfr
      maxIterations_pos := positiveInt_pos (by decide) hit
      maxRouteHops_pos := by
        intro n hn
        obtain ⟨v, hv, rfl⟩ := Option.mem_map.mp hn
        have : ¬ v ≤ 0 := fun hle => hhp ⟨v, hv, hle⟩
        omega
      unavailable_known := fun id hid => knownLinks_known hun id (mem_sortedSet.mp hid)
      unavailable_sorted := sortedSet_idem _
      delays_known := by
        intro d hd
        by_contra hn
        exact hdk ⟨d, mem_sortedBy.mp hd, hn⟩
      delays_nonneg := by
        intro d hd
        exact not_lt.mp (raiseIf_eq_ok.mp (forM_eq_ok.mp hdn d (mem_sortedBy.mp hd)))
      delays_sorted := sortedBy_idem _ _
      directed_known := by
        intro d hd
        have hc := forM_eq_ok.mp hdr d (mem_sortedBy.mp hd)
        exact not_not.mp (raiseIf_bind.mp hc).1
      directed_nonneg := by
        intro d hd
        have hc := forM_eq_ok.mp hdr d (mem_sortedBy.mp hd)
        exact not_lt.mp (raiseIf_eq_ok.mp (raiseIf_bind.mp hc).2)
      directed_sorted := sortedBy_idem _ _
      sll_known := fun id hid => knownLinks_known hsl id (mem_sortedSet.mp hid)
      sll_sorted := sortedSet_idem _
      shared_known := by
        intro id hid
        rcases List.mem_append.mp (mem_sortedSet.mp hid) with hid | hid
        · exact knownLinks_known hsr id hid
        · obtain ⟨link, hl, rfl⟩ := List.mem_map.mp hid
          exact List.mem_map_of_mem (List.mem_of_mem_filter hl)
      shared_sorted := sortedSet_idem _
      shared_boardDb := by
        intro link hln hsh
        rw [mem_sortedSet, List.mem_append]
        exact Or.inr (List.mem_map_of_mem (List.mem_filter.mpr ⟨hln, by simp [hsh]⟩))
      lambdas_nonneg := ⟨nonNegativeNumber_nonneg (by norm_num) hld,
        nonNegativeNumber_nonneg (by norm_num) htm,
        nonNegativeNumber_nonneg (by norm_num) hhs,
        nonNegativeNumber_nonneg (by norm_num) htd⟩
      quantum_pos := Nat.pos_of_ne_zero hq
      minRatio_pos := Nat.pos_of_ne_zero hm
      minRatio_legal := by
        by_cases h1 : minimum = 1
        · exact Or.inl h1
        · exact Or.inr (Nat.dvd_of_mod_eq_zero (not_not.mp fun hne => hlg ⟨h1, hne⟩))
      minRatio_le := not_lt.mp hle
      link_models := by
        rw [← hmd]
        exact congrArg (forM platform.links)
          (checkLinkModel_congr (fun _ => mem_sortedSet) (fun _ => mem_sortedBy)
            fun _ => mem_sortedBy) }

end EmuFlow.Routing
