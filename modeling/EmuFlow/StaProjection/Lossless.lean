import EmuFlow.StaProjection.Projection

/-!
# What the projection loses

A projection keeps every boundary and the worst slack exactly when some path crosses a boundary and
the cuts carry every step of every path. A path that follows a net from a replica of its driver
while the net is still cut for another FPGA is not carried.
-/

namespace EmuFlow.StaProjection

open Check SortedSet Routing EmuFlow.Partition Replication List CutTransition

variable {ir : EmuIR} {assignment : ProjectedAssignment} {locations : Locations}

/-- Every crossing path is in one member list, no other path is in any, and whatever the delays of
the cut nets, the worst slacks are those of the crossing paths. -/
structure Lossless (database : PathDatabase) (crossings : DatabasePath → List CutTransition)
    (paths : List ProjectedPath) : Prop where
  represented : ∀ path ∈ database.paths, crossings path ≠ [] → ∃ rep,
    (paths.filter fun rep => path.id ∈ rep.compressedPathIds) = [rep] ∧
      rep.cutTransitions = some (crossings path) ∧
      rep.cutNets = (crossings path).map net
  local_absent : ∀ path ∈ database.paths, crossings path = [] →
    ∀ rep ∈ paths, path.id ∉ rep.compressedPathIds
  worst_slack : ∀ delay : String → ℚ, (∀ net, 0 ≤ delay net) →
    (paths.map (slackUnder delay)).minimum =
      ((database.paths.filter fun path => crossings path ≠ []).map fun path =>
        path.slackNs - ((crossings path).map fun t => delay t.net).sum).minimum
  worst_normalized : ∀ delay : String → ℚ, (∀ net, 0 ≤ delay net) →
    (paths.map (normalizedUnder database.normalization delay)).minimum =
      ((database.paths.filter fun path => crossings path ≠ []).map fun path =>
        TdmRatio.normalizedSlack path.clockPeriodNs
          (path.slackNs - ((crossings path).map fun t => delay t.net).sum)
          database.normalization).minimum

variable {database : PathDatabase} {crossings : DatabasePath → List CutTransition}

theorem mem_map_projectedPaths {normalization : TimingNormalization} {paths : List DatabasePath}
    (hc : ∀ path ∈ paths, crossingOf assignment path =
      ((crossings path).map net, some (crossings path)))
    {f : ProjectedPath → ℚ} {g : DatabasePath → ℚ}
    (hf : ∀ path ∈ paths, ∀ p, projectedPath assignment normalization path
      ((crossings path).map net, some (crossings path)) = some p → f p = g path)
    (b : ℚ) : b ∈ (projectedPaths assignment normalization paths).map f ↔
      b ∈ (paths.filter fun path => crossings path ≠ []).map g := by
  rw [mem_map, mem_map]
  constructor
  · rintro ⟨p, hp, rfl⟩
    obtain ⟨path, hpt, hs⟩ := mem_projectedPaths.mp hp
    rw [hc path hpt] at hs
    refine ⟨path, mem_filter.mpr ⟨hpt, ?_⟩, (hf path hpt p hs).symm⟩
    have hne := (projectedPath_eq_some hs).1
    simpa using hne
  · rintro ⟨path, hpt, rfl⟩
    obtain ⟨hpt, hne⟩ := mem_filter.mp hpt
    have hne : (crossings path).map net ≠ [] := by simpa using hne
    obtain ⟨p, hp⟩ : ∃ p, projectedPath assignment normalization path
        ((crossings path).map net, some (crossings path)) = some p :=
      ⟨_, if_neg hne⟩
    refine ⟨p, mem_projectedPaths.mpr ⟨path, hpt, ?_⟩, hf path hpt p hp⟩
    rw [hc path hpt, hp]

theorem lossless_of_crossing (hvalid : ValidDatabase database)
    (hcr : ∀ path ∈ database.paths, crossingOf assignment path =
      ((crossings path).map net, some (crossings path))) :
    Lossless database crossings
      (compressPaths (projectedPaths assignment database.normalization database.paths)) := by
  have his := nodup_projectedPaths assignment database.normalization hvalid.ids_nodup
  have hsm : ∀ p ∈ projectedPaths assignment database.normalization database.paths,
      ∃ path ∈ database.paths, crossings path ≠ [] ∧ p.id = path.id ∧
        p.clockPeriodNs = path.clockPeriodNs ∧
        p.cutTransitions = some (crossings path) := by
    intro p hp
    obtain ⟨path, hpt, h⟩ := mem_projectedPaths.mp hp
    rw [hcr path hpt] at h
    obtain ⟨hne, hid, hpr, -, -, htn⟩ := projectedPath_eq_some h
    exact ⟨path, hpt, by simpa using hne, hid, hpr, htn⟩
  refine ⟨fun path hpt hne => ?_, fun path hpt hnl rep hrp hmm => ?_, fun delay _ => ?_,
    fun delay _ => ?_⟩
  · have hnt : (crossings path).map net ≠ [] := by simpa using hne
    obtain ⟨p, hp⟩ : ∃ p, projectedPath assignment database.normalization path
        (crossingOf assignment path) = some p := by
      rw [hcr path hpt]
      exact ⟨_, if_neg hnt⟩
    obtain ⟨-, hid, -, -, hct, htn⟩ := projectedPath_eq_some hp
    obtain ⟨rep, hrp, hsg⟩ :=
      filter_compressPaths his (mem_projectedPaths.mpr ⟨path, hpt, hp⟩)
    rw [hid] at hrp
    obtain ⟨-, -, hns, htr⟩ := signature_eq hsg
    refine ⟨rep, hrp, ?_, ?_⟩
    · -- a representative is a projected path, so it has transitions
      have hmm : rep ∈ compressPaths (projectedPaths assignment database.normalization
          database.paths) := by
        have hfl : rep ∈ ([rep] : List ProjectedPath) := mem_singleton_self rep
        rw [← hrp] at hfl
        exact (mem_filter.mp hfl).1
      obtain ⟨k, members, chosen, hcs, rfl⟩ := mem_compressPaths.mp hmm
      obtain ⟨path', -, -, -, -, hch⟩ :=
        hsm chosen (Representatives.representative_mem hcs).1
      rw [htn, hcr path hpt] at htr
      simp only [hch, Option.getD_some] at htr ⊢
      rw [htr]
    · rw [hns, hct, hcr path hpt]
  · obtain ⟨p, hp, hid, -⟩ := exists_of_mem_compressedPathIds hrp hmm
    obtain ⟨path', hpt', hne, hid', -, -⟩ := hsm p hp
    obtain rfl := inj_on_of_nodup_map hvalid.ids_nodup hpt' hpt (hid'.symm.trans hid)
    exact hne hnl
  · rw [minimum_compressPaths (f := slackUnder delay) (fun _ _ => rfl)
      fun a _ b _ hsg hrn => slackUnder_le hsg hrn]
    refine minimum_congr (mem_map_projectedPaths hcr fun path _ p hp => ?_)
    obtain ⟨-, -, -, hsl, hnt, -⟩ := projectedPath_eq_some hp
    rw [slackUnder, hsl, hnt, map_map]
    rfl
  · rw [minimum_compressPaths (f := normalizedUnder database.normalization delay)
      (fun _ _ => rfl) fun a ha b _ hsg hrn => ?_]
    · refine minimum_congr (mem_map_projectedPaths hcr fun path _ p hp => ?_)
      obtain ⟨-, -, hpr, hsl, hnt, -⟩ := projectedPath_eq_some hp
      rw [normalizedUnder, slackUnder, hpr, hsl, hnt, map_map]
      rfl
    · obtain ⟨path, hpt, -, -, hpr, -⟩ := hsm a ha
      have hps : 0 < a.clockPeriodNs := by
        rw [hpr]
        exact (hvalid.paths_valid path hpt).clockPeriod_pos
      unfold normalizedUnder
      rw [← (signature_eq hsg).1]
      exact normalizedSlack_mono hps hvalid.positive_pos hvalid.negative_pos hvalid.max_pos
        (slackUnder_le hsg hrn)

theorem cutNets_ne_nil {path : DatabasePath} {crossing : List String × Option (List CutTransition)}
    (h : pathTransitions assignment path (candidates assignment path.pathNets) = .ok crossing)
    (hne : crossing.1 ≠ []) : assignment.cutNets ≠ [] := by
  intro hn
  have hc : candidates assignment path.pathNets = [] := by
    unfold candidates
    rw [hn]
    simp
  rw [hc] at h
  unfold pathTransitions at h
  split at h
  · split at h
    · exact hne (by rw [← Except.ok.inj h])
    · obtain ⟨-, h⟩ := raiseIf_bind.mp h
      exact hne (by rw [← Except.ok.inj h]; rfl)
  · exact hne (by rw [← Except.ok.inj h])

theorem transitions_of_nil (hct : CutsOf ir assignment.instanceAssignment locations
      assignment.cutNets)
    (hf : PrimaryFirst assignment.instanceAssignment locations) (hnamed : Named locations)
    {path : DatabasePath} {start : String} {hops : List (String × String)}
    (hp : RealPath ir path start hops) {crossing : List String × Option (List CutTransition)}
    (h : pathTransitions assignment path (candidates assignment path.pathNets) = .ok crossing)
    (hn : crossing.1 = []) : crossing.2 = some [] := by
  obtain ⟨-, endFpgas, he⟩ := located_ends hct hp.hops_ne_nil hp.chain
  unfold pathTransitions at h
  rw [hp.startpoint_eq, hp.endpoint_eq] at h
  dsimp only at h
  rw [partition_eq_some hf hnamed he] at h
  obtain ⟨state, hs, h⟩ := bind_eq_ok.mp h
  cases state with
  | none =>
    -- without a candidate the loop does not give up
    have hc : candidates assignment path.pathNets = [] :=
      (congrArg Prod.fst (Except.ok.inj h)).trans hn
    rw [hc] at hs
    cases hs
  | some state =>
    obtain ⟨target, reversed⟩ := state
    obtain ⟨-, h⟩ := raiseIf_bind.mp h
    cases h
    have hr : reversed.reverse = [] := map_eq_nil_iff.mp hn
    show some reversed.reverse = some []
    rw [hr]

theorem crossing_of_lossless (hvalid : ValidDatabase database)
    (hnn : ∀ path ∈ database.paths, (crossingOf assignment path).1 = [] →
      (crossingOf assignment path).2 = some [])
    (h : Lossless database crossings
      (compressPaths (projectedPaths assignment database.normalization database.paths))) :
    ∀ path ∈ database.paths, crossingOf assignment path =
      ((crossings path).map net, some (crossings path)) := by
  intro path hpt
  have his := nodup_projectedPaths assignment database.normalization hvalid.ids_nodup
  by_cases hne : (crossingOf assignment path).1 = []
  · -- the path is in no member list, so it crosses no boundary
    have hnl : crossings path = [] := by
      by_contra hcr
      obtain ⟨rep, hre, -⟩ := h.represented path hpt hcr
      obtain ⟨hmm, hid⟩ := mem_filter.mp (hre ▸ mem_singleton_self rep)
      obtain ⟨p, hp, hpd, -⟩ := exists_of_mem_compressedPathIds hmm (of_decide_eq_true hid)
      obtain ⟨path', hpt', hsm⟩ := mem_projectedPaths.mp hp
      obtain ⟨hne', hid', -⟩ := projectedPath_eq_some hsm
      obtain rfl := inj_on_of_nodup_map hvalid.ids_nodup hpt' hpt (hid'.symm.trans hpd)
      exact hne' hne
    rw [hnl]
    exact Prod.ext hne (hnn path hpt hne)
  · obtain ⟨p, hp⟩ : ∃ p, projectedPath assignment database.normalization path
        (crossingOf assignment path) = some p := ⟨_, if_neg hne⟩
    obtain ⟨-, hid, -, -, hct, htn⟩ := projectedPath_eq_some hp
    obtain ⟨rep, hre, hsg⟩ :=
      filter_compressPaths his (mem_projectedPaths.mpr ⟨path, hpt, hp⟩)
    rw [hid] at hre
    have hcr : crossings path ≠ [] := by
      intro hnl
      obtain ⟨hmm, hid⟩ := mem_filter.mp (hre ▸ mem_singleton_self rep)
      exact h.local_absent path hpt hnl rep hmm (of_decide_eq_true hid)
    obtain ⟨rep', hre', hrp, hrn⟩ := h.represented path hpt hcr
    obtain rfl : rep = rep' := singleton_inj.mp (hre.symm.trans hre')
    obtain ⟨-, -, hnt, htr⟩ := signature_eq hsg
    rw [hrn, hct] at hnt
    rw [hrp, htn] at htr
    refine Prod.ext hnt.symm ?_
    cases hst : (crossingOf assignment path).2 with
    | none =>
      rw [hst] at htr
      exact absurd htr hcr
    | some steps =>
      rw [hst] at htr
      exact congrArg some htr.symm

section

variable {sourceInputSha256 : String} {chains : DatabasePath → String × List (String × String)}
  (hlegal : LegalAssignment ir assignment locations) (hnamed : Named locations)
  (hvalid : ValidDatabase database) (hdesign : database.design = assignment.design)
  (hschema : assignment.schema = PARTITION_ASSIGNMENT_SCHEMA)
  (hdigest : isSha256 sourceInputSha256 = true)
  (hchains : ∀ path ∈ database.paths, RealPath ir path (chains path).1 (chains path).2)
include hlegal hnamed hvalid hdesign hschema hdigest hchains

theorem transitions_of_lossless
    (h : ∃ artifact report, projectStaPathDatabaseValue database assignment sourceInputSha256 =
      .ok (artifact, report) ∧ Lossless database (fun path =>
        (trace assignment.instanceAssignment locations (chains path).1 (chains path).2).2)
        artifact.paths) :
    (∃ path ∈ database.paths, (trace assignment.instanceAssignment locations (chains path).1
      (chains path).2).2 ≠ []) ∧
    ∀ path ∈ database.paths, pathTransitions assignment path (candidates assignment path.pathNets) =
        .ok ((trace assignment.instanceAssignment locations (chains path).1
            (chains path).2).2.map net,
          some (trace assignment.instanceAssignment locations (chains path).1
            (chains path).2).2) := by
  obtain ⟨hc, hf⟩ := hlegal.spec
  obtain ⟨-, ha, hpr, hl⟩ := (exists_projection_iff hvalid hdesign hschema hdigest
    hc hf hnamed (Q := fun paths => Lossless database _ paths)).mp h
  have hcr := crossing_of_lossless hvalid (fun path hpt hn =>
    transitions_of_nil hc hf hnamed (hchains path hpt) (ha path hpt) hn) hl
  refine ⟨?_, fun path hpt => ?_⟩
  · obtain ⟨p, hp⟩ := exists_mem_of_ne_nil _ hpr
    obtain ⟨path, hpt, hs⟩ := mem_projectedPaths.mp hp
    have hne := (projectedPath_eq_some hs).1
    rw [hcr path hpt] at hne
    exact ⟨path, hpt, fun hn => hne (by rw [hn]; rfl)⟩
  · rw [ha path hpt, hcr path hpt]

/-- **The projection and the compression lose nothing exactly when a path crosses a boundary, the
cuts carry every step of every path, and every path starts at the original of its startpoint.** -/
theorem lossless_iff :
    (∃ artifact report, projectStaPathDatabaseValue database assignment sourceInputSha256 =
        .ok (artifact, report) ∧ Lossless database (fun path =>
          (trace assignment.instanceAssignment locations (chains path).1 (chains path).2).2)
          artifact.paths) ↔
      (∃ path ∈ database.paths, (trace assignment.instanceAssignment locations (chains path).1
        (chains path).2).2 ≠ []) ∧
      ∀ path ∈ database.paths,
        Carried ir assignment.instanceAssignment locations (chains path).1 (chains path).2 ∧
          (trace assignment.instanceAssignment locations (chains path).1 (chains path).2).1 =
            original assignment.instanceAssignment (chains path).1 := by
  obtain ⟨hcuts, hfirst⟩ := hlegal.spec
  have htransitions := fun path hpath => pathTransitions_iff hcuts hfirst hnamed
    (hchains path hpath) (hvalid.paths_valid path hpath).pathNets_nodup
  constructor
  · intro h
    obtain ⟨hcross, hall⟩ := transitions_of_lossless hlegal hnamed hvalid hdesign hschema hdigest
      hchains h
    exact ⟨hcross, fun path hpath => (htransitions path hpath).mp (hall path hpath)⟩
  · rintro ⟨⟨path, hpath, hcross⟩, hcarried⟩
    have hfound := fun path hpath => (htransitions path hpath).mpr (hcarried path hpath)
    have hcrossing : ∀ path ∈ database.paths, crossingOf assignment path =
        ((trace assignment.instanceAssignment locations (chains path).1
            (chains path).2).2.map net,
          some (trace assignment.instanceAssignment locations (chains path).1
            (chains path).2).2) := by
      intro path hpath
      unfold crossingOf
      rw [hfound path hpath]
    have hnets : (crossingOf assignment path).1 ≠ [] := by
      rw [hcrossing path hpath]
      exact fun hnil => hcross (map_eq_nil_iff.mp hnil)
    have hall : ∀ path ∈ database.paths, pathTransitions assignment path
        (candidates assignment path.pathNets) = .ok (crossingOf assignment path) := by
      intro path hpath
      rw [hfound path hpath, hcrossing path hpath]
    refine (exists_projection_iff hvalid hdesign hschema hdigest hcuts hfirst hnamed
      (Q := fun paths => Lossless database _ paths)).mpr
      ⟨cutNets_ne_nil (hall path hpath) hnets, hall, ?_, lossless_of_crossing hvalid hcrossing⟩
    exact ne_nil_of_mem (mem_projectedPaths.mpr ⟨path, hpath, if_neg hnets⟩)

end

/-! ### a fork, a joint wire and a reset -/

/-- A register drives a look-up table that feeds registers on two other FPGAs. These drive one wire
together, and one resets the other. -/
def forkedDesign : EmuIR where
  ports := []
  instances := [{ id := "ra", type := "FDRE", resources := { ff := 1 } },
    { id := "rb", type := "FDRE", resources := { ff := 1 } },
    { id := "rc", type := "FDRE", resources := { ff := 1 } },
    { id := "table", type := "LUT1", resources := { lut := 1 } }]
  nets := [{ id := "fork", cutClass := .registerInput, drivers := [⟨some "table", "O", 0⟩]
             sinks := [⟨some "rb", "D", 0⟩, ⟨some "rc", "D", 0⟩] },
    { id := "joint", cutClass := .registerOutput
      drivers := [⟨some "rb", "Q", 0⟩, ⟨some "rc", "Q", 0⟩], sinks := [⟨some "ra", "D", 0⟩] },
    { id := "reset", cutClass := .reset, drivers := [⟨some "rc", "Q", 0⟩]
      sinks := [⟨some "rb", "R", 0⟩] },
    { id := "state", cutClass := .registerOutput, drivers := [⟨some "ra", "Q", 0⟩]
      sinks := [⟨some "table", "I0", 0⟩] }]
  instance_ids_nodup := by decide
  net_ids_nodup := by decide
  endpoints_known := by decide

def forkedAssignment : ProjectedAssignment where
  design := "forked"
  cutNets := [{ net := "fork", cutClass := .registerInput, sourceFpgas := ["ga"]
                sinkFpgas := ["gb", "gc"], sinkEndpoints := 2, transportRound := some 1 },
    { net := "joint", cutClass := .registerOutput, sourceFpgas := ["gb", "gc"]
      sinkFpgas := ["ga"], sinkEndpoints := 1, transportRound := none }]
  instanceAssignment := [("ra", "ga"), ("rb", "gb"), ("rc", "gc"), ("table", "ga")]

def forkedChains : List (String × String × List (String × String)) :=
  [("cross", "ra", [("state", "table"), ("fork", "rb")]), ("stay", "ra", [("state", "table")]),
    ("clear", "rc", [("reset", "rb")]), ("merge", "rb", [("joint", "ra")])]

def forkedChain (path : DatabasePath) : String × List (String × String) :=
  (forkedChains.lookup path.id).getD ("", [])

def forkedPath (id : String) : DatabasePath :=
  let chain := (forkedChains.lookup id).getD ("", [])
  { id := id
    clockDomain := "clk"
    clockPeriodNs := 10
    slackNs := 1
    fixedDelayNs := 2
    pathNets := chain.2.map Prod.fst
    normalizedSlack := 1
    startpoint := some ⟨some chain.1⟩
    endpoint := some ⟨some (endOf chain.1 chain.2)⟩ }

def forkedDatabase (ids : List String) : PathDatabase where
  schema := STA_PATH_DATABASE_STREAM_SCHEMA
  design := "forked"
  normalization :=
    { positiveSlackScaleNs := 1, negativeSlackScaleNs := 1, maxClockPeriodNs := 10 }
  paths := ids.map forkedPath

def forkedDigest : String := String.ofList (List.replicate 64 'a')

def forkedLocations : Locations := unreplicated forkedAssignment.instanceAssignment

def ForkedLossless (ids : List String) : Prop :=
  ∃ artifact report,
    projectStaPathDatabaseValue (forkedDatabase ids) forkedAssignment forkedDigest =
      .ok (artifact, report) ∧
    Lossless (forkedDatabase ids) (fun path => (trace forkedAssignment.instanceAssignment
      forkedLocations (forkedChain path).1 (forkedChain path).2).2) artifact.paths

theorem forked_legal : LegalAssignment forkedDesign forkedAssignment forkedLocations := by
  obtain ⟨⟨cuts, metrics⟩, h⟩ := exists_of_isOk (x := computeCutNetsWithMetrics forkedDesign
    forkedAssignment.instanceAssignment) (by decide +kernel)
  have hc : (computeCutNetsWithMetrics forkedDesign
      forkedAssignment.instanceAssignment).toOption.map Prod.fst =
        some forkedAssignment.cutNets := by decide +kernel
  rw [h] at hc
  obtain rfl : cuts = forkedAssignment.cutNets := Option.some.inj hc
  exact .baseline h

theorem forked_named : Named forkedLocations := by
  intro i fpgas h he
  have ha : ∀ e ∈ forkedLocations, "" ∉ e.2 := by decide
  exact ha (i, fpgas) (Keyed.mem_of_lookup h) he

theorem forkedPath_valid : ∀ id ∈ forkedChains.map Prod.fst,
    ValidPath (forkedDatabase []).normalization (forkedPath id) ∧
      RealPath forkedDesign (forkedPath id) (forkedChain (forkedPath id)).1
        (forkedChain (forkedPath id)).2 := by
  simp only [forkedChains, map_cons, map_nil, forall_mem_cons]
  refine ⟨?_, ?_, ?_, ?_, by simp⟩ <;>
    exact ⟨⟨by decide, by decide, by decide +kernel, by decide +kernel, by decide, by decide,
      by decide, by decide +kernel⟩, ⟨rfl, rfl, rfl, by decide, by decide⟩⟩

theorem forkedDatabase_valid {ids : List String} (hn : ids.Nodup)
    (hi : ∀ id ∈ ids, id ∈ forkedChains.map Prod.fst)
    (hs : normalizationMatches (expectedNormalization (forkedDatabase ids).paths)
      (forkedDatabase ids).normalization) : ValidDatabase (forkedDatabase ids) where
  schema_mem := mem_cons_of_mem _ mem_cons_self
  ids_nodup := by
    have hm : (forkedDatabase ids).paths.map DatabasePath.id = ids := by
      show (ids.map forkedPath).map DatabasePath.id = ids
      rw [map_map]
      exact map_id ids
    rw [hm]
    exact hn
  paths_valid := by
    intro path hp
    obtain ⟨id, hid, rfl⟩ := mem_map.mp hp
    exact (forkedPath_valid id (hi id hid)).1
  positive_pos := one_pos
  negative_pos := one_pos
  max_pos := by
    show (0 : ℚ) < 10
    norm_num
  scales_eq := hs

theorem forked_realPath {ids : List String} (hi : ∀ id ∈ ids, id ∈ forkedChains.map Prod.fst) :
    ∀ path ∈ (forkedDatabase ids).paths,
      RealPath forkedDesign path (forkedChain path).1 (forkedChain path).2 := by
  intro path hp
  obtain ⟨id, hid, rfl⟩ := mem_map.mp hp
  exact (forkedPath_valid id (hi id hid)).2

/-- A path over the fork and a local one are kept. -/
theorem forked_lossless : ForkedLossless ["cross", "stay"] := by
  have hids : ∀ id ∈ ["cross", "stay"], id ∈ forkedChains.map Prod.fst := by decide
  have hvalid := forkedDatabase_valid (by decide) hids (by decide +kernel)
  refine (lossless_iff forked_legal forked_named hvalid rfl rfl (by decide)
    (forked_realPath hids)).mpr ⟨by decide, fun path hpath => ?_⟩
  refine (pathTransitions_iff forked_legal.spec.1 forked_legal.spec.2 forked_named
    (forked_realPath hids path hpath) (hvalid.paths_valid path hpath).pathNets_nodup).mp ?_
  obtain ⟨id, hid, rfl⟩ := mem_map.mp hpath
  fin_cases hid <;> rfl

/-- A database without a crossing path is refused; the boundary of the reset is not seen, nor that
of the wire with two drivers. -/
theorem forked_lossy : ¬ ForkedLossless ["stay"] ∧ ¬ ForkedLossless ["cross", "clear"] ∧
    ¬ ForkedLossless ["cross", "merge"] := by
  have hlost : ∀ ids : List String, (hnodup : ids.Nodup) →
      (hids : ∀ id ∈ ids, id ∈ forkedChains.map Prod.fst) →
      (hscales : normalizationMatches (expectedNormalization (forkedDatabase ids).paths)
        (forkedDatabase ids).normalization) → ForkedLossless ids →
      (∃ path ∈ (forkedDatabase ids).paths, (trace forkedAssignment.instanceAssignment
        forkedLocations (forkedChain path).1 (forkedChain path).2).2 ≠ []) ∧
      ∀ path ∈ (forkedDatabase ids).paths, (pathTransitions forkedAssignment path
        (candidates forkedAssignment path.pathNets)).toOption.bind Prod.snd =
          some (trace forkedAssignment.instanceAssignment forkedLocations (forkedChain path).1
            (forkedChain path).2).2 := by
    intro ids hnodup hids hscales h
    obtain ⟨hcross, hall⟩ := transitions_of_lossless forked_legal forked_named
      (forkedDatabase_valid hnodup hids hscales) rfl rfl (by decide) (forked_realPath hids) h
    refine ⟨hcross, fun path hpath => ?_⟩
    rw [hall path hpath]
    rfl
  refine ⟨fun h => ?_, fun h => ?_, fun h => ?_⟩
  · exact absurd (hlost _ (by decide) (by decide) (by decide +kernel) h).1 (by decide)
  · exact absurd (hlost _ (by decide) (by decide) (by decide +kernel) h).2 (by decide)
  · exact absurd (hlost _ (by decide) (by decide) (by decide +kernel) h).2 (by decide)

end EmuFlow.StaProjection
