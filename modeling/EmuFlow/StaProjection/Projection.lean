import EmuFlow.StaProjection.Chains

/-!
# What the compression keeps

Paths of one signature have the same required time and cross the same cut nets, so the one with the
largest fixed delay has the least slack under any delays of the cut nets.
-/

namespace EmuFlow.StaProjection

open Check SortedSet Routing EmuFlow.Partition Representatives

def slackUnder (delay : String → ℚ) (path : ProjectedPath) : ℚ :=
  path.slackNs - (path.cutNets.map delay).sum

def normalizedUnder (normalization : TimingNormalization) (delay : String → ℚ)
    (path : ProjectedPath) : ℚ :=
  TdmRatio.normalizedSlack path.clockPeriodNs (slackUnder delay path) normalization

/-! ## signatures -/

theorem lex_inj {κ κ' : Type} [LinearOrder κ] {a c : κ} {b d : κ'} :
    lex a b = lex c d ↔ a = c ∧ b = d := by
  unfold lex
  rw [EmbeddingLike.apply_eq_iff_eq, Prod.mk.injEq]

theorem transitionKey_injective : Function.Injective transitionKey := by
  rintro ⟨n, s, t⟩ ⟨n', s', t'⟩ h
  simp only [transitionKey, lex_inj] at h
  obtain ⟨rfl, rfl, rfl⟩ := h
  rfl

variable {a b : ProjectedPath}

theorem signature_eq (h : signature a = signature b) :
    a.clockPeriodNs = b.clockPeriodNs ∧ a.fixedDelayNs + a.slackNs = b.fixedDelayNs + b.slackNs ∧
      a.cutNets = b.cutNets ∧ a.cutTransitions.getD [] = b.cutTransitions.getD [] := by
  simp only [signature, lex_inj] at h
  obtain ⟨-, hp, hr, -, hn, ht⟩ := h
  exact ⟨hp, hr, hn, transitionKey_injective.list_map ht⟩

theorem fixedDelay_le_of_rank (h : rank a ≤ rank b) : a.fixedDelayNs ≤ b.fixedDelayNs := by
  unfold rank lex at h
  rcases Prod.Lex.toLex_le_toLex.mp h with hlt | ⟨heq, -⟩
  · exact hlt.le
  · exact heq.le

theorem slackUnder_le {delay : String → ℚ}
    (hs : signature a = signature b) (hr : rank a ≤ rank b) :
    slackUnder delay b ≤ slackUnder delay a := by
  obtain ⟨-, hrq, hn, -⟩ := signature_eq hs
  have hf := fixedDelay_le_of_rank hr
  unfold slackUnder
  rw [hn]
  linarith

theorem normalizedSlack_mono {period : ℚ} {normalization : TimingNormalization}
    (hpr : 0 < period) (hp : 0 < normalization.positiveSlackScaleNs)
    (hn : 0 < normalization.negativeSlackScaleNs)
    (hmax : 0 < normalization.maxClockPeriodNs) {s t : ℚ} (h : s ≤ t) :
    TdmRatio.normalizedSlack period s normalization ≤
      TdmRatio.normalizedSlack period t normalization := by
  unfold TdmRatio.normalizedSlack
  by_cases hs : 0 ≤ s
  · rw [if_pos hs, if_pos (hs.trans h)]
    gcongr
  · rw [if_neg hs]
    by_cases ht : 0 ≤ t
    · rw [if_pos ht]
      have hl : s / (normalization.negativeSlackScaleNs * period) ≤ 0 :=
        div_nonpos_of_nonpos_of_nonneg (not_le.mp hs).le (by positivity)
      have hr : 0 ≤ t * period / (normalization.positiveSlackScaleNs *
          normalization.maxClockPeriodNs) := by positivity
      exact hl.trans hr
    · rw [if_neg ht]
      gcongr

/-! ## the compressed paths -/

variable {paths : List ProjectedPath}

theorem mem_compressPaths {rep : ProjectedPath} : rep ∈ compressPaths paths ↔
    ∃ k members chosen, (k, members, chosen) ∈ representatives signature rank paths ∧
      rep = { chosen with compressedPathIds := sorted (members.map ProjectedPath.id) } := by
  unfold compressPaths
  rw [List.mem_map]
  constructor
  · rintro ⟨⟨k, members, chosen⟩, hm, rfl⟩
    exact ⟨k, members, chosen, mem_sortedBy.mp hm, rfl⟩
  · rintro ⟨k, members, chosen, hm, rfl⟩
    exact ⟨_, mem_sortedBy.mpr hm, rfl⟩

theorem nodup_compressPaths (paths : List ProjectedPath) : (compressPaths paths).Nodup := by
  have hk : (compressPaths paths).map signature =
      (sortedBy Prod.fst (representatives signature rank paths)).map Prod.fst := by
    unfold compressPaths
    rw [List.map_map]
    refine List.map_congr_left fun e he => ?_
    exact (representative_mem (mem_sortedBy.mp he)).2.1
  refine List.Nodup.of_map signature ?_
  rw [hk, ((sortedBy_perm Prod.fst _).map Prod.fst).nodup_iff]
  exact nodup_representatives signature rank paths

theorem exists_of_mem_compressedPathIds {rep : ProjectedPath} (hr : rep ∈ compressPaths paths)
    {id : String} (hid : id ∈ rep.compressedPathIds) :
    ∃ path ∈ paths, path.id = id ∧ signature path = signature rep := by
  obtain ⟨k, members, chosen, hmm, rfl⟩ := mem_compressPaths.mp hr
  obtain ⟨-, hm, -⟩ := mem_representatives.mp hmm
  obtain ⟨path, hp, rfl⟩ := List.mem_map.mp (mem_sorted.mp hid)
  rw [hm] at hp
  obtain ⟨hpt, hk⟩ := List.mem_filter.mp hp
  refine ⟨path, hpt, rfl, ?_⟩
  have hky : signature path = k := by simpa using hk
  exact hky.trans (representative_mem hmm).2.1.symm

theorem filter_compressPaths (hi : (paths.map ProjectedPath.id).Nodup) {path : ProjectedPath}
    (hp : path ∈ paths) : ∃ rep, ((compressPaths paths).filter
      fun rep => path.id ∈ rep.compressedPathIds) = [rep] ∧ signature rep = signature path := by
  obtain ⟨chosen, hc⟩ := exists_representative signature rank hp
  let ids := sorted
    ((paths.filter fun b => signature b = signature path).map ProjectedPath.id)
  let rep : ProjectedPath := { chosen with compressedPathIds := ids }
  have hr : rep ∈ compressPaths paths := mem_compressPaths.mpr ⟨_, _, chosen, hc, rfl⟩
  have hs : signature rep = signature path := (representative_mem hc).2.1
  have hm : path.id ∈ rep.compressedPathIds := by
    refine mem_sorted.mpr (List.mem_map_of_mem (List.mem_filter.mpr ⟨hp, ?_⟩))
    exact decide_eq_true rfl
  refine ⟨rep, ?_, hs⟩
  refine Replication.filter_eq_singleton (nodup_compressPaths paths) hr hm ?_
  intro other ho hid
  -- the ids are distinct, so both lists are those of the signature of the path
  obtain ⟨found, hf, hfd, hfn⟩ := exists_of_mem_compressedPathIds ho hid
  obtain rfl := List.inj_on_of_nodup_map hi hf hp hfd
  obtain ⟨k, members, chosen', hc', rfl⟩ := mem_compressPaths.mp ho
  have hk : k = signature found := by
    rw [hfn]
    exact (representative_mem hc').2.1.symm
  subst hk
  obtain ⟨-, rfl, hrn'⟩ := mem_representatives.mp hc'
  obtain ⟨-, -, hrn⟩ := mem_representatives.mp hc
  obtain rfl := Option.some.inj (hrn'.symm.trans hrn)
  rfl

theorem minimum_congr {β : Type} [LinearOrder β] {l m : List β} (h : ∀ b, b ∈ l ↔ b ∈ m) :
    l.minimum = m.minimum :=
  le_antisymm (List.le_minimum_of_forall_le fun b hb => List.minimum_le_of_mem' ((h b).mpr hb))
    (List.le_minimum_of_forall_le fun b hb => List.minimum_le_of_mem' ((h b).mp hb))

/-- Compression keeps the worst slack. -/
theorem minimum_compressPaths {f : ProjectedPath → ℚ}
    (hi : ∀ (path : ProjectedPath) ids, f { path with compressedPathIds := ids } = f path)
    (hf : ∀ a ∈ paths, ∀ b ∈ paths, signature a = signature b → rank a ≤ rank b → f b ≤ f a) :
    ((compressPaths paths).map f).minimum = (paths.map f).minimum := by
  rw [← minimum_representatives signature rank hf]
  refine minimum_congr fun b => ?_
  rw [List.mem_map, List.mem_map]
  constructor
  · rintro ⟨rep, hr, rfl⟩
    obtain ⟨k, members, chosen, hm, rfl⟩ := mem_compressPaths.mp hr
    exact ⟨_, hm, (hi chosen _).symm⟩
  · rintro ⟨⟨k, members, chosen⟩, hm, rfl⟩
    exact ⟨_, mem_compressPaths.mpr ⟨k, members, chosen, hm, rfl⟩, hi chosen _⟩

/-!
## The projection of a database

The loop over the records of a valid database succeeds exactly when the transitions of every path
are found; then the artifact has the compressed records of the paths that cross a boundary.

* `LegalAssignment.spec` — the cuts of a legal assignment are those of its locations
* `foldlM_projectTurn` — the loop over the records
* `exists_projection_iff` — what the projection depends on
-/

open Replication

/-- The cuts of the assignment are those of `compute_cut_nets`, or those of a replication that was
built; the instances have these locations. -/
inductive LegalAssignment (ir : EmuIR) (assignment : ProjectedAssignment) : Locations → Prop where
  | baseline {metrics : CutMetrics} (h : computeCutNetsWithMetrics ir
      assignment.instanceAssignment = .ok (assignment.cutNets, metrics)) :
      LegalAssignment ir assignment (unreplicated assignment.instanceAssignment)
  | replicated {digest : List CutRecord → String} {fpgas : List FpgaCapacity}
      {clusters : List Cluster} {activeFpgas : List String} {primary : PartitionAssignment}
      {replicas normalized : Replicas} {built : ReplicationArtifact × List CutRecord × CutMetrics}
      {locations : Locations}
      (hprimary : expandClusterAssignment clusters activeFpgas primary.clusterAssignment =
        .ok assignment.instanceAssignment)
      (hinstances : primary.instanceAssignment = assignment.instanceAssignment)
      (hbuild : buildReplicationArtifact digest ir fpgas clusters primary replicas = .ok built)
      (hnormalized : normalizeReplicas replicas primary.clusterAssignment
        (fpgas.map FpgaCapacity.id) = .ok normalized)
      (hlocations : instanceLocations primary.clusterAssignment clusters normalized = .ok locations)
      (hcuts : assignment.cutNets = built.2.1) : LegalAssignment ir assignment locations

structure ValidPath (normalization : TimingNormalization) (path : DatabasePath) : Prop where
  id_ne : path.id ≠ ""
  clockDomain_ne : path.clockDomain ≠ ""
  clockPeriod_pos : 0 < path.clockPeriodNs
  fixedDelay_nonneg : 0 ≤ path.fixedDelayNs
  pathNets_ne_nil : path.pathNets ≠ []
  pathNets_ne : "" ∉ path.pathNets
  pathNets_nodup : path.pathNets.Nodup
  normalizedSlack_eq : |path.normalizedSlack -
    TdmRatio.normalizedSlack path.clockPeriodNs path.slackNs normalization| ≤ TOLERANCE

structure ValidDatabase (database : PathDatabase) : Prop where
  schema_mem : database.schema ∈ [STA_PATH_DATABASE_SCHEMA, STA_PATH_DATABASE_STREAM_SCHEMA,
    STA_PATH_DATABASE_INDEX_SCHEMA]
  ids_nodup : (database.paths.map DatabasePath.id).Nodup
  paths_valid : ∀ path ∈ database.paths, ValidPath database.normalization path
  positive_pos : 0 < database.normalization.positiveSlackScaleNs
  negative_pos : 0 < database.normalization.negativeSlackScaleNs
  max_pos : 0 < database.normalization.maxClockPeriodNs
  scales_eq : normalizationMatches (expectedNormalization database.paths) database.normalization

variable {ir : EmuIR} {assignment : ProjectedAssignment} {locations : Locations}

theorem primaryFirst_instanceLocations {clusterAssignment : List (String × String)}
    {clusters : List Cluster} {activeFpgas : List String} {replicas : Replicas}
    {primary : InstanceAssignment}
    (hprimary : expandClusterAssignment clusters activeFpgas clusterAssignment = .ok primary)
    (hlocations : instanceLocations clusterAssignment clusters replicas = .ok locations) :
    PrimaryFirst primary locations := by
  obtain ⟨-, h⟩ := raiseIf_bind.mp hprimary
  obtain ⟨-, h⟩ := raiseIf_bind.mp h
  obtain ⟨parts, hpr, h⟩ := bind_eq_ok.mp h
  cases h
  obtain ⟨placed, hpl, h⟩ := bind_eq_ok.mp hlocations
  cases h
  -- an instance is assigned to the first of its places
  have hpr' : placed.map (fun part => part.map fun e => (e.1, e.2.headD "")) = parts := by
    refine map_eq_of_mapM (fun cluster _ places part hp hpt => ?_) hpl hpr
    obtain ⟨fpga, hf, hpt⟩ := bind_eq_ok.mp hpt
    obtain ⟨fpga', hf', hp⟩ := bind_eq_ok.mp hp
    obtain rfl := Except.ok.inj (hf.symm.trans hf')
    rw [← Except.ok.inj hpt, ← Except.ok.inj hp, List.map_map]
    rfl
  have hfl : parts.flatten = placed.flatten.map fun e => (e.1, e.2.headD "") := by
    rw [← hpr', List.map_flatten]
  intro i fpgas hl
  have hne := lookup_instanceLocations_ne hlocations hl
  refine ⟨fpgas.headD "", ?_, ?_⟩
  · rw [hfl, Keyed.lookup_map_snd (fun l : List String => l.headD ""), hl]
    rfl
  · cases fpgas with
    | nil => exact absurd rfl hne
    | cons f fpgas => exact List.mem_cons_self

theorem LegalAssignment.spec (h : LegalAssignment ir assignment locations) :
    CutsOf ir assignment.instanceAssignment locations assignment.cutNets ∧
      PrimaryFirst assignment.instanceAssignment locations := by
  cases h with
  | baseline h => exact ⟨cutsOf_baseline h, primaryFirst_unreplicated⟩
  | @replicated digest fpgas clusters activeFpgas primary replicas normalized built _ hprimary
      hinstances hbuild hnormalized hlocations hcuts =>
    refine ⟨?_, primaryFirst_instanceLocations hprimary hlocations⟩
    obtain ⟨normalized', hn', h⟩ := bind_eq_ok.mp hbuild
    obtain rfl := Except.ok.inj (hn'.symm.trans hnormalized)
    obtain ⟨legal, -, h⟩ := bind_eq_ok.mp h
    obtain ⟨-, h⟩ := raiseIf_bind.mp h
    obtain ⟨proofs, -, h⟩ := bind_eq_ok.mp h
    obtain ⟨locations', hl', h⟩ := bind_eq_ok.mp h
    obtain rfl := Except.ok.inj (hl'.symm.trans hlocations)
    obtain ⟨resources, -, h⟩ := bind_eq_ok.mp h
    obtain ⟨base, -, h⟩ := bind_eq_ok.mp h
    obtain ⟨effective, he, h⟩ := bind_eq_ok.mp h
    obtain ⟨baseEffective, -, h⟩ := bind_eq_ok.mp h
    obtain ⟨records, -, h⟩ := bind_eq_ok.mp h
    obtain ⟨replicated, -, h⟩ := bind_eq_ok.mp h
    cases h
    rw [hcuts, ← hinstances]
    obtain ⟨effectiveCuts, metrics, counts⟩ := effective
    exact cutsOf_effective he

theorem forM_checkCutNet
    (hcuts : CutsOf ir assignment.instanceAssignment locations assignment.cutNets)
    (hfirst : PrimaryFirst assignment.instanceAssignment locations) (hnamed : Named locations) :
    forM ((sortedSet (assignment.cutNets.map CutRecord.net)).filterMap assignment.cutByNet)
      checkCutNet = .ok () := by
  refine forM_eq_ok.mpr fun cut hc => raiseIf_eq_ok.mpr ?_
  obtain ⟨id, -, hf⟩ := List.mem_filterMap.mp hc
  have hm := List.mem_reverse.mp (Keyed.mem_of_find hf)
  obtain ⟨net, hn, hid⟩ := hcuts.exists_net cut hm
  obtain ⟨-, -, hs, hsn, -⟩ := hcuts.of_cut net hn cut hm hid
  rintro (hem | hem)
  · obtain ⟨e, he, i, hi, hl⟩ := (hs "").mp hem
    obtain ⟨fpgas, hpl⟩ := hcuts.located net hn e (List.mem_append_left _ he) i hi
    obtain ⟨p, hp, hpm⟩ := hfirst i fpgas hpl
    obtain rfl := Option.some.inj (hp.symm.trans hl)
    exact hnamed i fpgas hpl hpm
  · obtain ⟨⟨e, he, i, fpgas, hi, hpl, hmm⟩, -⟩ := (hsn "").mp hem
    exact hnamed i fpgas hpl hmm

variable {normalization : TimingNormalization}

theorem checkDatabasePath_eq_ok {path : DatabasePath}
    (h : ValidPath normalization path) {seen : List String} (hs : path.id ∉ seen)
    (index : Nat) : checkDatabasePath normalization seen index path = .ok () := by
  refine raiseIf_bind.mpr ⟨?_, raiseIf_bind.mpr ⟨?_, raiseIf_bind.mpr
    ⟨?_, raiseIf_eq_ok.mpr ?_⟩⟩⟩
  · simp [h.id_ne, hs, h.clockDomain_ne]
  · simp [h.clockPeriod_pos, h.fixedDelay_nonneg]
  · simp [h.pathNets_ne_nil, h.pathNets_ne, h.pathNets_nodup]
  · exact not_lt.mpr h.normalizedSlack_eq

def crossingOf (assignment : ProjectedAssignment) (path : DatabasePath) :
    List String × Option (List CutTransition) :=
  match pathTransitions assignment path (candidates assignment path.pathNets) with
  | .ok crossing => crossing
  | .error _ => ([], none)

def projectedPaths (assignment : ProjectedAssignment) (normalization : TimingNormalization)
    (paths : List DatabasePath) : List ProjectedPath :=
  paths.filterMap fun path =>
    projectedPath assignment normalization path (crossingOf assignment path)

theorem foldlM_projectTurn (assignment : ProjectedAssignment) :
    ∀ {paths : List DatabasePath} (index : Nat) (seen : List String) (done : List ProjectedPath)
      (state : List String × List ProjectedPath),
      (∀ path ∈ paths, ValidPath normalization path) →
      (seen ++ paths.map DatabasePath.id).Nodup →
      ((paths.zipIdx index).foldlM (projectTurn assignment normalization) (seen, done) = .ok state ↔
        (∀ path ∈ paths, pathTransitions assignment path (candidates assignment path.pathNets) =
            .ok (crossingOf assignment path)) ∧
          state = (seen ++ paths.map DatabasePath.id,
            done ++ projectedPaths assignment normalization paths))
  | [], index, seen, done, state, _, _ => by
    simp [projectedPaths, eq_comm, pure, Except.pure]
  | path :: paths, index, seen, done, state, hvalid, hn => by
    have hs : path.id ∉ seen := fun hm =>
      List.disjoint_of_nodup_append hn hm (by simp)
    have hch := checkDatabasePath_eq_ok (hvalid path List.mem_cons_self) hs index
    rw [List.zipIdx_cons, List.foldlM_cons, projectTurn, hch]
    have hr := fun done => foldlM_projectTurn assignment (index + 1) (seen ++ [path.id]) done state
      (fun p hp => hvalid p (List.mem_cons_of_mem _ hp)) (by simpa using hn)
    cases ht : pathTransitions assignment path (candidates assignment path.pathNets) with
    | error e =>
      constructor
      · intro h
        obtain ⟨_, h, -⟩ := bind_eq_ok.mp h
        cases h
      · rintro ⟨h, -⟩
        have := h path List.mem_cons_self
        rw [ht] at this
        cases this
    | ok crossing =>
      have hc : crossingOf assignment path = crossing := by
        unfold crossingOf
        rw [ht]
      refine (hr _).trans ?_
      have hpr : projectedPaths assignment normalization (path :: paths) =
          (projectedPath assignment normalization path crossing).toList ++
            projectedPaths assignment normalization paths := by
        unfold projectedPaths
        rw [List.filterMap_cons, hc]
        cases projectedPath assignment normalization path crossing <;> rfl
      rw [hpr, List.forall_mem_cons, ht, hc]
      simp

theorem projectedPath_eq_some {path : DatabasePath}
    {crossing : List String × Option (List CutTransition)} {p : ProjectedPath}
    (h : projectedPath assignment normalization path crossing = some p) :
    crossing.1 ≠ [] ∧ p.id = path.id ∧ p.clockPeriodNs = path.clockPeriodNs ∧
      p.slackNs = path.slackNs ∧ p.cutNets = crossing.1 ∧ p.cutTransitions = crossing.2 := by
  unfold projectedPath at h
  split at h
  · cases h
  · next hne =>
    rw [← Option.some.inj h]
    exact ⟨hne, rfl, rfl, rfl, rfl, rfl⟩

variable {paths : List DatabasePath}

theorem mem_projectedPaths
    {p : ProjectedPath} : p ∈ projectedPaths assignment normalization paths ↔ ∃ path ∈ paths,
      projectedPath assignment normalization path (crossingOf assignment path) = some p :=
  List.mem_filterMap

theorem nodup_projectedPaths (assignment : ProjectedAssignment)
    (normalization : TimingNormalization)
    (h : (paths.map DatabasePath.id).Nodup) :
    ((projectedPaths assignment normalization paths).map ProjectedPath.id).Nodup := by
  refine List.Nodup.sublist ?_ h
  unfold projectedPaths
  induction paths with
  | nil => exact .slnil
  | cons path paths ih =>
    rw [List.map_cons, List.nodup_cons] at h
    cases hp : projectedPath assignment normalization path (crossingOf assignment path) with
    | none =>
      rw [List.filterMap_cons, hp, List.map_cons]
      exact (ih h.2).cons _
    | some p =>
      rw [List.filterMap_cons, hp, List.map_cons, List.map_cons, (projectedPath_eq_some hp).2.1]
      exact (ih h.2).cons_cons _

section

variable {database : PathDatabase} {sourceInputSha256 : String}
  (hvalid : ValidDatabase database) (hdesign : database.design = assignment.design)
  (hschema : assignment.schema = PARTITION_ASSIGNMENT_SCHEMA)
  (hdigest : isSha256 sourceInputSha256 = true)
  (hcuts : CutsOf ir assignment.instanceAssignment locations assignment.cutNets)
  (hfirst : PrimaryFirst assignment.instanceAssignment locations) (hnamed : Named locations)
include hvalid hdesign hschema hdigest hcuts hfirst hnamed

theorem exists_projection_iff {Q : List ProjectedPath → Prop} :
    (∃ artifact report, projectStaPathDatabaseValue database assignment sourceInputSha256 =
        .ok (artifact, report) ∧ Q artifact.paths) ↔
      assignment.cutNets ≠ [] ∧
      (∀ path ∈ database.paths,
        pathTransitions assignment path (candidates assignment path.pathNets) =
          .ok (crossingOf assignment path)) ∧
      projectedPaths assignment database.normalization database.paths ≠ [] ∧
      Q (compressPaths (projectedPaths assignment database.normalization database.paths)) := by
  have hnr : checkNormalization database.normalization = .ok () :=
    raiseIf_bind.mpr ⟨not_le.mpr hvalid.max_pos, raiseIf_bind.mpr
      ⟨not_le.mpr hvalid.negative_pos, raiseIf_eq_ok.mpr (not_le.mpr hvalid.positive_pos)⟩⟩
  have hl := fun state => foldlM_projectTurn assignment 0 [] [] state hvalid.paths_valid
    (by simpa using hvalid.ids_nodup)
  constructor
  · rintro ⟨artifact, report, h, hQ⟩
    obtain ⟨-, h⟩ := raiseIf_bind.mp h
    obtain ⟨-, h⟩ := raiseIf_bind.mp h
    obtain ⟨-, h⟩ := raiseIf_bind.mp h
    obtain ⟨-, h⟩ := raiseIf_bind.mp h
    obtain ⟨hne, h⟩ := raiseIf_bind.mp h
    obtain ⟨-, -, h⟩ := bind_eq_ok.mp h
    obtain ⟨-, -, h⟩ := bind_eq_ok.mp h
    obtain ⟨-, h⟩ := raiseIf_bind.mp h
    obtain ⟨state, hs, h⟩ := bind_eq_ok.mp h
    obtain ⟨ha, rfl⟩ := (hl state).mp hs
    obtain ⟨hp, h⟩ := raiseIf_bind.mp h
    obtain ⟨-, h⟩ := raiseIf_bind.mp h
    cases h
    rw [List.nil_append] at hp hQ
    exact ⟨hne, ha, hp, hQ⟩
  · rintro ⟨hne, ha, hp, hQ⟩
    have hpt : database.paths ≠ [] := by
      rintro hn
      rw [hn] at hp
      exact hp rfl
    refine ⟨_, _, raiseIf_bind.mpr ⟨by simp [hdigest], raiseIf_bind.mpr
      ⟨not_not.mpr hvalid.schema_mem, raiseIf_bind.mpr ⟨not_not.mpr hschema,
        raiseIf_bind.mpr ⟨not_not.mpr hdesign, raiseIf_bind.mpr ⟨hne,
          bind_eq_ok.mpr ⟨(), hnr, bind_eq_ok.mpr
            ⟨(), forM_checkCutNet hcuts hfirst hnamed, raiseIf_bind.mpr
              ⟨fun h => hpt h.2, bind_eq_ok.mpr ⟨_, (hl _).mpr ⟨ha, rfl⟩,
                raiseIf_bind.mpr ⟨hp, raiseIf_bind.mpr
                  ⟨not_not.mpr hvalid.scales_eq, rfl⟩⟩⟩⟩⟩⟩⟩⟩⟩⟩⟩, ?_⟩
    exact hQ

end

end EmuFlow.StaProjection
