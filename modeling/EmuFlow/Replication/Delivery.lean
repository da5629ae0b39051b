import EmuFlow.Replication.Artifact

/-!
# What replication says of the cuts

The effective cuts deliver every net, are those of `compute_cut_nets` without replicas, and the
validator accepts them, exactly when every net that is to be transported has a driver.
-/

namespace EmuFlow.Replication

open Check SortedSet EmuFlow.Partition List

/-! ## normalized replicas -/

section normalize

variable {clusterAssignment : List (String × String)} {fpgaIds : List String}
  {replicas normalized : Replicas}

structure NormalTargets (clusterAssignment : List (String × String)) (fpgaIds : List String)
    (entry : String × List String) : Prop where
  ne : entry.2 ≠ []
  nodup : entry.2.Nodup
  known : ∀ target ∈ entry.2, target ∈ fpgaIds
  sorted : sorted entry.2 = entry.2
  primary : ∃ primary, clusterAssignment.lookup entry.1 = some primary ∧ primary ∉ entry.2

theorem filter_count_eq_nil {l : List String} :
    sortedSet (l.filter fun a => 1 < l.count a) = [] ↔ l.Nodup := by
  rw [eq_nil_iff_forall_not_mem, nodup_iff_count_le_one]
  simp only [mem_sortedSet, mem_filter, decide_eq_true_eq, not_and, not_lt]
  refine ⟨fun h a => ?_, fun h a _ => h a⟩
  by_cases ha : a ∈ l
  · exact h a ha
  · rw [count_eq_zero_of_not_mem ha]
    exact Nat.zero_le 1

theorem filter_unknown_eq_nil {l known : List String} :
    sortedSet (l.filter fun a => a ∉ known) = [] ↔ ∀ a ∈ l, a ∈ known := by
  rw [eq_nil_iff_forall_not_mem]
  simp

theorem normalizeTargets_normal {entry entry' : String × List String}
    (h : normalizeTargets clusterAssignment fpgaIds entry = .ok (some entry')) :
    entry'.1 = entry.1 ∧ NormalTargets clusterAssignment fpgaIds entry' := by
  obtain ⟨hd, h⟩ := raiseIf_bind.mp h
  obtain ⟨hu, h⟩ := raiseIf_bind.mp h
  obtain ⟨primary, hp, h⟩ := bind_eq_ok.mp h
  obtain ⟨hr, h⟩ := raiseIf_bind.mp h
  have hn := filter_count_eq_nil.mp (not_not.mp hd)
  have hk := filter_unknown_eq_nil.mp (not_not.mp hu)
  by_cases he : entry.2 = []
  · rw [if_pos he] at h
    cases h
  rw [if_neg he] at h
  cases h
  refine ⟨rfl, ?_, nodup_sorted.mpr hn, fun target ht => hk target
    (mem_sorted.mp ht), sortedBy_idem id _, primary, lookupOrRaise_eq_ok.mp hp, ?_⟩
  · intro hnl
    have hl : (sorted entry.2).length = 0 := congrArg List.length hnl
    rw [length_sorted] at hl
    exact he (length_eq_zero_iff.mp hl)
  · rw [mem_sorted]
    exact hr

theorem normalizeTargets_of_normal {entry : String × List String}
    (h : NormalTargets clusterAssignment fpgaIds entry) :
    normalizeTargets clusterAssignment fpgaIds entry = .ok (some entry) := by
  obtain ⟨primary, hp, hn⟩ := h.primary
  refine raiseIf_bind.mpr ⟨not_not.mpr (filter_count_eq_nil.mpr h.nodup), ?_⟩
  refine raiseIf_bind.mpr ⟨not_not.mpr (filter_unknown_eq_nil.mpr h.known), ?_⟩
  refine bind_eq_ok.mpr ⟨primary, lookupOrRaise_eq_ok.mpr hp, ?_⟩
  refine raiseIf_bind.mpr ⟨hn, ?_⟩
  rw [if_neg h.ne, h.sorted]
  rfl

structure NormalReplicas (clusterAssignment : List (String × String)) (fpgaIds : List String)
    (replicas : Replicas) : Prop where
  nodup : (replicas.map Prod.fst).Nodup
  sorted : replicas.Pairwise fun a b => a.1 ≤ b.1
  targets : ∀ entry ∈ replicas, NormalTargets clusterAssignment fpgaIds entry

theorem normalizeReplicas_normal (hk : (replicas.map Prod.fst).Nodup)
    (h : normalizeReplicas replicas clusterAssignment fpgaIds = .ok normalized) :
    NormalReplicas clusterAssignment fpgaIds normalized := by
  obtain ⟨-, h⟩ := raiseIf_bind.mp h
  obtain ⟨found, hf, h⟩ := bind_eq_ok.mp h
  cases h
  have hsb := sublist_of_mapM (g := Prod.fst) (k := Prod.fst)
    (fun _ _ _ h hsm => (normalizeTargets_normal (h.trans (congrArg Except.ok hsm))).1) hf
  refine ⟨hsb.nodup ?_, ?_, fun e he => ?_⟩
  · exact ((sortedBy_perm Prod.fst replicas).map Prod.fst).nodup_iff.mpr hk
  · have hs : ((sortedBy Prod.fst replicas).map Prod.fst).Pairwise (· ≤ ·) :=
      pairwise_map.mpr (pairwise_sortedBy Prod.fst replicas)
    exact pairwise_map.mp (hs.sublist hsb)
  · obtain ⟨o, ho, rfl⟩ := mem_filterMap.mp he
    obtain ⟨raw, -, hr⟩ := exists_of_mem_mapM hf ho
    exact (normalizeTargets_normal hr).2

theorem normalizeReplicas_of_normal (h : NormalReplicas clusterAssignment fpgaIds replicas) :
    normalizeReplicas replicas clusterAssignment fpgaIds = .ok replicas := by
  refine raiseIf_bind.mpr ⟨not_not.mpr (filter_unknown_eq_nil.mpr fun id hid => ?_), ?_⟩
  · obtain ⟨e, he, rfl⟩ := mem_map.mp hid
    obtain ⟨primary, hp, -⟩ := (h.targets e he).primary
    exact mem_map.mpr ⟨_, Keyed.mem_of_lookup hp, rfl⟩
  · rw [sortedBy_eq_self h.sorted, mapM_eq_ok_map fun e he =>
      normalizeTargets_of_normal (h.targets e he)]
    refine congrArg Except.ok ?_
    rw [filterMap_map]
    exact filterMap_some

end normalize

section validator

variable {digest : List CutRecord → String} {ir : EmuIR} {fpgas : List FpgaCapacity}
  {clusters : List Cluster} {primary : PartitionAssignment} {replicas : Replicas}
  {built : ReplicationArtifact × List CutRecord × CutMetrics}

theorem replicas_buildReplicationArtifact (hk : (replicas.map Prod.fst).Nodup)
    (h : buildReplicationArtifact digest ir fpgas clusters primary replicas = .ok built) :
    ∃ normalized, normalizeReplicas replicas primary.clusterAssignment
        (fpgas.map FpgaCapacity.id) = .ok normalized ∧
      built.1.replicas.foldl
        (fun replicas r => Keyed.append r.cluster r.targetFpga replicas) [] =
          normalized := by
  obtain ⟨normalized, hn, h⟩ := bind_eq_ok.mp h
  obtain ⟨legal, -, h⟩ := bind_eq_ok.mp h
  obtain ⟨-, h⟩ := raiseIf_bind.mp h
  obtain ⟨proofs, -, h⟩ := bind_eq_ok.mp h
  obtain ⟨locations, -, h⟩ := bind_eq_ok.mp h
  obtain ⟨resources, -, h⟩ := bind_eq_ok.mp h
  obtain ⟨base, -, h⟩ := bind_eq_ok.mp h
  obtain ⟨effective, -, h⟩ := bind_eq_ok.mp h
  obtain ⟨baseEffective, -, h⟩ := bind_eq_ok.mp h
  obtain ⟨records, hr, h⟩ := bind_eq_ok.mp h
  obtain ⟨copies, -, h⟩ := bind_eq_ok.mp h
  cases h
  have hnr := normalizeReplicas_normal hk hn
  refine ⟨normalized, hn, ?_⟩
  -- a record tells its cluster and its target
  have hp : records.flatten.map (fun r => (r.cluster, r.targetFpga)) =
      normalized.flatMap fun e => e.2.map fun target => (e.1, target) := by
    rw [map_flatten, flatMap_def]
    refine congrArg List.flatten (map_of_mapM (fun e found hf => ?_) hr)
    obtain ⟨cluster, -, hf⟩ := bind_eq_ok.mp hf
    obtain ⟨fpga, -, hf⟩ := bind_eq_ok.mp hf
    rw [← Except.ok.inj hf, map_map]
    rfl
  have hg := @Keyed.foldl_append_flatMap String _ String normalized [] hnr.nodup
    fun e he => (hnr.targets e he).ne
  rw [nil_append, ← hp, foldl_map] at hg
  exact hg

theorem buildReplicationArtifact_congr {primary' : PartitionAssignment} {replicas' : Replicas}
    (hc : primary'.clusterAssignment = primary.clusterAssignment)
    (hi : primary'.instanceAssignment = primary.instanceAssignment)
    (hr : normalizeReplicas replicas' primary.clusterAssignment (fpgas.map FpgaCapacity.id) =
      normalizeReplicas replicas primary.clusterAssignment (fpgas.map FpgaCapacity.id)) :
    buildReplicationArtifact digest ir fpgas clusters primary' replicas' =
      buildReplicationArtifact digest ir fpgas clusters primary replicas := by
  rw [buildReplicationArtifact, buildReplicationArtifact, hc, hi, hr]

theorem validate_applyReplication (hk : (replicas.map Prod.fst).Nodup)
    {result : PartitionAssignment}
    (h : applyReplication digest ir fpgas clusters primary replicas = .ok result) :
    ∃ built, validateReplicationArtifact digest ir fpgas clusters result = .ok built := by
  obtain ⟨built, hb, h⟩ := bind_eq_ok.mp h
  cases h
  obtain ⟨normalized, hn, hl⟩ := replicas_buildReplicationArtifact hk hb
  have hnr := normalizeReplicas_normal hk hn
  refine ⟨built, bind_eq_ok.mpr ⟨built.1, rfl, bind_eq_ok.mpr ⟨built, ?_, ?_⟩⟩⟩
  · rw [hl, ← hb]
    refine buildReplicationArtifact_congr rfl rfl ?_
    rw [hn, normalizeReplicas_of_normal hnr]
  · exact raiseIf_bind.mpr ⟨not_not.mpr rfl, rfl⟩

end validator

/-! ## the effective cuts -/

section cuts

variable {ir : EmuIR} {primary : InstanceAssignment} {locations : Locations} {net : Net}
  {cuts : List CutRecord} {metrics : CutMetrics} {counts : EndpointCounts}

def CopyAt (locations : Locations) (endpoints : List Endpoint) (f : String) : Prop :=
  ∃ e ∈ endpoints, ∃ i fpgas, e.inst = some i ∧ locations.lookup i = some fpgas ∧ f ∈ fpgas

variable {endpoints : List Endpoint}

theorem mem_endpointLocations {found : List String}
    (h : endpointLocations locations endpoints = .ok found) {f : String} :
    f ∈ found ↔ CopyAt locations endpoints f := by
  obtain ⟨lists, hls, h⟩ := bind_eq_ok.mp h
  cases h
  rw [mem_flatten]
  constructor
  · rintro ⟨fpgas, hfp, hf⟩
    obtain ⟨i, hi, hl⟩ := exists_of_mem_mapM hls hfp
    obtain ⟨e, he, hin⟩ := mem_filterMap.mp hi
    exact ⟨e, he, i, fpgas, hin, lookupOrRaise_eq_ok.mp hl, hf⟩
  · rintro ⟨e, he, i, fpgas, hin, hl, hf⟩
    obtain ⟨fpgas', hfp', hl'⟩ := mem_mapM_of_mem hls (mem_filterMap.mpr ⟨e, he, hin⟩)
    rw [lookupOrRaise_eq_ok, hl, Option.some.injEq] at hl'
    exact ⟨fpgas', hfp', hl' ▸ hf⟩

theorem cutRecord_eq_some {driverFpgas sinks remote : List String} {cut : CutRecord}
    (h : cutRecord net driverFpgas sinks remote = some cut) :
    remote ≠ [] ∧ cut.net = net.id ∧ cut.sourceFpgas = driverFpgas ∧ cut.sinkFpgas = remote := by
  by_cases hr : remote = []
  · rw [cutRecord, if_pos hr] at h
    cases h
  rw [cutRecord, if_neg hr] at h
  cases h
  exact ⟨hr, rfl, rfl, rfl⟩

def Transported (net : Net) : Prop :=
  net.cutClass ≠ .clock ∧ net.cutClass ≠ .reset ∧
    ¬ (net.cutClass = .primaryInput ∧ ∀ e ∈ net.drivers, e.inst = none)

variable {primaryDrivers drivers sinks : List String}

theorem effectiveOutcome_cut {cut : CutRecord}
    (h : (effectiveOutcome net primaryDrivers drivers sinks).cut = some cut) :
    cut.net = net.id ∧ cut.sourceFpgas = sortedSet primaryDrivers ∧
      ∀ f, f ∈ cut.sinkFpgas ↔ f ∈ sinks ∧ f ∉ drivers := by
  unfold effectiveOutcome at h
  dsimp only at h
  split at h
  · cases h
  split at h
  · cases h
  · obtain ⟨-, hn, hs, hsn⟩ := cutRecord_eq_some h
    refine ⟨hn, hs, fun f => ?_⟩
    rw [hsn, mem_filter, mem_sortedSet, decide_eq_true_eq]

structure NetCut (primary : InstanceAssignment) (locations : Locations) (net : Net)
    (cuts : List CutRecord) (primaryDrivers drivers sinks : List String) : Prop where
  primaryDrivers_eq : endpointFpgas primary net.drivers = .ok primaryDrivers
  unique : (sortedSet primaryDrivers).length ≤ 1
  drivers_eq : endpointLocations locations net.drivers = .ok drivers
  sinks_eq : endpointLocations locations net.sinks = .ok sinks
  mem_cuts : ∀ cut, cut ∈ cuts ∧ cut.net = net.id ↔
    (effectiveOutcome net primaryDrivers drivers sinks).cut = some cut

theorem effectiveTurn_eq_ok {outcome : NetOutcome × EndpointCounts}
    (h : effectiveTurn primary locations net = .ok outcome) :
    ∃ primaryDrivers drivers sinks, endpointFpgas primary net.drivers = .ok primaryDrivers ∧
      (sortedSet primaryDrivers).length ≤ 1 ∧
      endpointLocations locations net.drivers = .ok drivers ∧
      endpointLocations locations net.sinks = .ok sinks ∧
      outcome.1 = effectiveOutcome net primaryDrivers drivers sinks := by
  obtain ⟨primaryDrivers, hp, h⟩ := bind_eq_ok.mp h
  obtain ⟨hu, h⟩ := raiseIf_bind.mp h
  simp only [bind_eq_ok] at h
  obtain ⟨drivers, hd, sinks, hs, h⟩ := h
  exact ⟨primaryDrivers, drivers, sinks, hp, not_lt.mp hu, hd, hs,
    congrArg Prod.fst (Except.ok.inj h).symm⟩

theorem computeEffectiveCuts_spec
    (h : computeEffectiveCuts ir primary locations = .ok (cuts, metrics, counts)) :
    (cuts.map CutRecord.net).Nodup ∧ ∀ net ∈ ir.nets, ∃ primaryDrivers drivers sinks,
      NetCut primary locations net cuts primaryDrivers drivers sinks := by
  obtain ⟨outcomes, ho, h⟩ := bind_eq_ok.mp h
  cases h
  have hc : ∀ net outcome cut, effectiveTurn primary locations net = .ok outcome →
      outcome.1.cut = some cut → cut.net = net.id := by
    intro net outcome cut ht hc
    obtain ⟨_, _, _, -, -, -, -, hoc⟩ := effectiveTurn_eq_ok ht
    rw [hoc] at hc
    exact (effectiveOutcome_cut hc).1
  have hcs : (outcomes.map Prod.fst).filterMap NetOutcome.cut =
      outcomes.filterMap fun outcome => outcome.1.cut := by
    rw [filterMap_map]
    rfl
  have hs := sublist_of_mapM (p := fun outcome => outcome.1.cut) (g := CutRecord.net)
    (k := Net.id) hc ho
  rw [hcs]
  refine ⟨((sortedBy_perm CutRecord.net _).map CutRecord.net).nodup_iff.mpr
    (hs.nodup ir.net_ids_nodup), fun net hn => ?_⟩
  obtain ⟨outcome, hoc, ht⟩ := mem_mapM_of_mem ho hn
  obtain ⟨primaryDrivers, drivers, sinks, hp, hu, hd, hsn, heq⟩ :=
    effectiveTurn_eq_ok ht
  refine ⟨primaryDrivers, drivers, sinks, hp, hu, hd, hsn, fun cut => ?_⟩
  rw [mem_sortedBy, mem_filterMap, ← heq]
  constructor
  · rintro ⟨⟨other, hoh, hct⟩, hid⟩
    -- only the turn of this net makes a cut of its name
    obtain ⟨net', hn', ht'⟩ := exists_of_mem_mapM ho hoh
    obtain rfl := ir.net_ext hn' hn ((hc net' other cut ht' hct).symm.trans hid)
    obtain rfl := Except.ok.inj (ht'.symm.trans ht)
    exact hct
  · intro hsm
    exact ⟨⟨outcome, hoc, hsm⟩, hc net outcome cut ht hsm⟩

/-! ### every net is delivered -/

def HasInstance (endpoints : List Endpoint) : Prop := ∃ e ∈ endpoints, ∃ i, e.inst = some i

instance (endpoints : List Endpoint) : Decidable (HasInstance endpoints) :=
  decidable_of_iff (∃ e ∈ endpoints, e.inst.isSome = true) (by
    simp only [HasInstance, Option.isSome_iff_exists])

/-- An FPGA with a sink of the net has its driver or is in the one cut of the net that brings it
there, from the FPGA of the primary driver; no other FPGA is in a cut of the net. -/
def Delivered (primary : InstanceAssignment) (locations : Locations) (cuts : List CutRecord)
    (net : Net) : Prop :=
  (∀ f, CopyAt locations net.sinks f → CopyAt locations net.drivers f ∨
    ∃ cut d, (cuts.filter fun cut => cut.net = net.id ∧ f ∈ cut.sinkFpgas) = [cut] ∧
      cut.sourceFpgas = [d] ∧ PinnedAt primary net.drivers d) ∧
  ∀ cut ∈ cuts, cut.net = net.id → ∀ f ∈ cut.sinkFpgas,
    CopyAt locations net.sinks f ∧ ¬ CopyAt locations net.drivers f

theorem effectiveOutcome_of_remote {f : String}
    (ht : Transported net) (hdr : primaryDrivers ≠ [] ∨ net.cutClass ≠ .primaryInput)
    (hs : f ∈ sinks) (hr : f ∉ drivers) :
    ∃ cut, (effectiveOutcome net primaryDrivers drivers sinks).cut = some cut := by
  unfold effectiveOutcome
  dsimp only
  rw [if_neg (not_or.mpr ⟨ht.1, ht.2.1⟩), if_neg]
  · rw [cutRecord, if_neg]
    · exact ⟨_, rfl⟩
    · refine ne_nil_of_mem (mem_filter.mpr ⟨mem_sortedSet.mpr hs, ?_⟩)
      exact decide_eq_true hr
  · rintro ⟨hn, hc⟩
    rcases hdr with hdr | hdr
    · obtain ⟨d, hd⟩ := exists_mem_of_ne_nil _ hdr
      exact absurd (mem_sortedSet.mpr hd) (hn ▸ not_mem_nil)
    · exact hdr hc

theorem filter_eq_singleton {α : Type} {l : List α} {p : α → Prop} [DecidablePred p] {a : α}
    (hn : l.Nodup) (ha : a ∈ l) (hp : p a) (hu : ∀ b ∈ l, p b → b = a) :
    (l.filter fun b => p b) = [a] := by
  rw [← perm_singleton, perm_ext_iff_of_nodup (hn.filter _) (nodup_singleton a)]
  intro b
  rw [mem_filter, decide_eq_true_eq, mem_singleton]
  constructor
  · rintro ⟨hb, hpb⟩
    exact hu b hb hpb
  · rintro rfl
    exact ⟨ha, hp⟩

theorem NetCut.delivered (h : NetCut primary locations net cuts primaryDrivers drivers sinks)
    (hnd : (cuts.map CutRecord.net).Nodup) (htr : Transported net)
    (hdv : HasInstance net.sinks → HasInstance net.drivers) :
    Delivered primary locations cuts net := by
  constructor
  · intro f hsn
    by_cases hdr : CopyAt locations net.drivers f
    · exact .inl hdr
    -- the primary driver is on one FPGA
    obtain ⟨e, he, i, -, hin, -⟩ := id hsn
    obtain ⟨e', he', i', hin'⟩ := hdv ⟨e, he, i, hin⟩
    obtain ⟨found, hfn, hlk⟩ :=
      mem_mapM_of_mem h.primaryDrivers_eq (mem_filterMap.mpr ⟨e', he', hin'⟩)
    obtain ⟨d, hd⟩ : ∃ d, sortedSet primaryDrivers = [d] := by
      have hps := length_pos_of_mem (mem_sortedSet.mpr hfn)
      have hle := h.unique
      exact length_eq_one_iff.mp (by omega)
    have hsn' := (mem_endpointLocations h.sinks_eq).mpr hsn
    have hrm := fun hmm => hdr ((mem_endpointLocations h.drivers_eq).mp hmm)
    obtain ⟨cut, hct⟩ := effectiveOutcome_of_remote htr
      (.inl (ne_nil_of_mem hfn)) hsn' hrm
    obtain ⟨hmm, hid⟩ := (h.mem_cuts cut).mpr hct
    obtain ⟨-, hsr, hsk⟩ := effectiveOutcome_cut hct
    refine .inr ⟨cut, d, ?_, hsr.trans hd, ?_⟩
    · refine filter_eq_singleton hnd.of_map hmm ⟨hid, (hsk f).mpr ⟨hsn', hrm⟩⟩ ?_
      intro other hot hot'
      exact inj_on_of_nodup_map hnd hot hmm (hot'.1.trans hid.symm)
    · refine (mem_endpointFpgas h.primaryDrivers_eq).mp ?_
      rw [← mem_sortedSet, hd]
      exact mem_singleton_self d
  · intro cut hct hid f hf
    obtain ⟨-, -, hsk⟩ := effectiveOutcome_cut ((h.mem_cuts cut).mp ⟨hct, hid⟩)
    obtain ⟨hsn, hrm⟩ := (hsk f).mp hf
    exact ⟨(mem_endpointLocations h.sinks_eq).mp hsn, fun hdr =>
      hrm ((mem_endpointLocations h.drivers_eq).mpr hdr)⟩

/-! ### without replicas -/

def unreplicated (primary : InstanceAssignment) : Locations :=
  primary.map fun item => (item.1, [item.2])

variable {activeFpgas : List String} {clusterAssignment : List (String × String)}
  {clusters : List Cluster}

theorem instanceLocations_nil
    (h : expandClusterAssignment clusters activeFpgas clusterAssignment = .ok primary) :
    instanceLocations clusterAssignment clusters [] = .ok (unreplicated primary) := by
  obtain ⟨-, h⟩ := raiseIf_bind.mp h
  obtain ⟨-, h⟩ := raiseIf_bind.mp h
  obtain ⟨parts, hpr, h⟩ := bind_eq_ok.mp h
  cases h
  refine bind_eq_ok.mpr ⟨_, mapM_eq_ok_of_mapM (k := unreplicated)
    (fun cluster part hp => ?_) hpr, ?_⟩
  · obtain ⟨fpga, hf, hp⟩ := bind_eq_ok.mp hp
    rw [← Except.ok.inj hp, unreplicated, map_map]
    exact bind_eq_ok.mpr ⟨fpga, hf, rfl⟩
  · rw [unreplicated, map_flatten]
    rfl

variable {fpgas : List String}

theorem endpointLocations_unreplicated (h : endpointFpgas primary endpoints = .ok fpgas) :
    endpointLocations (unreplicated primary) endpoints = .ok fpgas := by
  refine bind_eq_ok.mpr ⟨_, mapM_eq_ok_of_mapM (k := fun f => [f]) (fun id f hf => ?_) h, ?_⟩
  · rw [lookupOrRaise_eq_ok] at hf ⊢
    rw [unreplicated, Keyed.lookup_map_snd (fun f => [f]), hf]
    rfl
  · exact congrArg Except.ok (flatMap_singleton' fpgas)

theorem effectiveOutcome_eq {drivers sinks : List String}
    (h : net.cutClass = .undriven → drivers = [] → sinks = []) :
    effectiveOutcome net drivers drivers sinks = netOutcome net drivers sinks := by
  have hfl : ((sortedSet sinks).filter fun f => f ∉ sortedSet drivers) =
      (sortedSet sinks).filter fun f => f ∉ drivers :=
    filter_congr fun f _ => by simp only [mem_sortedSet]
  rw [effectiveOutcome, netOutcome, hfl]
  by_cases hg : net.cutClass = .clock ∨ net.cutClass = .reset
  · rw [if_pos hg, if_pos hg]
  rw [if_neg hg, if_neg hg]
  by_cases hu : sortedSet drivers = [] ∧ net.cutClass = .undriven
  · have hd : drivers = [] := eq_nil_iff_forall_not_mem.mpr fun f hf => by
      have hm := mem_sortedSet.mpr hf
      rw [hu.1] at hm
      exact not_mem_nil hm
    have hs := h hu.2 hd
    subst hd
    subst hs
    rw [if_pos hu, if_neg (by simp [hu.2])]
    rfl
  · rw [if_neg hu]

def Driven (ir : EmuIR) : Prop :=
  ∀ net ∈ ir.nets, net.cutClass ∉ REPLICATED_NET_CLASSES →
    HasInstance net.sinks → HasInstance net.drivers

instance (ir : EmuIR) : Decidable (Driven ir) :=
  inferInstanceAs (Decidable (∀ net ∈ ir.nets, _))

def effectiveCutsWithoutReplicas (ir : EmuIR) (clusters : List Cluster)
    (primary : PartitionAssignment) : Result (List CutRecord × CutMetrics) := do
  let locations ← instanceLocations primary.clusterAssignment clusters []
  let effective ← computeEffectiveCuts ir primary.instanceAssignment locations
  return (effective.1, effective.2.1)

theorem endpointFpgas_eq_nil (h : ¬ HasInstance endpoints)
    (hfp : endpointFpgas primary endpoints = .ok fpgas) : fpgas = [] := by
  refine eq_nil_iff_forall_not_mem.mpr fun f hf => ?_
  obtain ⟨e, he, i, hi, -⟩ := (mem_endpointFpgas hfp).mp hf
  exact h ⟨e, he, i, hi⟩

theorem effectiveCutsWithoutReplicas_eq
    {assignment : PartitionAssignment} (hdv : Driven ir)
    (hpr : expandClusterAssignment clusters activeFpgas assignment.clusterAssignment =
      .ok assignment.instanceAssignment)
    {base : List CutRecord × CutMetrics}
    (hbs : computeCutNetsWithMetrics ir assignment.instanceAssignment = .ok base)
    {effective : List CutRecord × CutMetrics × EndpointCounts}
    (hef : computeEffectiveCuts ir assignment.instanceAssignment
      (unreplicated assignment.instanceAssignment) = .ok effective) :
    effectiveCutsWithoutReplicas ir clusters assignment =
      computeCutNetsWithMetrics ir assignment.instanceAssignment := by
  rw [effectiveCutsWithoutReplicas, instanceLocations_nil hpr, hbs]
  refine bind_eq_ok.mpr ⟨_, rfl, bind_eq_ok.mpr ⟨effective, hef, ?_⟩⟩
  obtain ⟨outcomes, hot, hbs⟩ := bind_eq_ok.mp hbs
  obtain ⟨outcomes', hot', hef⟩ := bind_eq_ok.mp hef
  have hsm : outcomes'.map Prod.fst = outcomes := by
    refine map_eq_of_mapM (fun net hnt outcome' outcome htr' htr => ?_) hot' hot
    obtain ⟨drivers, hdr, htr⟩ := bind_eq_ok.mp htr
    obtain ⟨sinks, hsn, htr⟩ := bind_eq_ok.mp htr
    obtain ⟨primaryDrivers, drivers', sinks', hpr', -, hdr', hsn', heq⟩ :=
      effectiveTurn_eq_ok htr'
    obtain rfl := Except.ok.inj (hpr'.symm.trans hdr)
    obtain rfl := Except.ok.inj (hdr'.symm.trans (endpointLocations_unreplicated hdr))
    obtain rfl := Except.ok.inj (hsn'.symm.trans (endpointLocations_unreplicated hsn))
    rw [heq, ← Except.ok.inj htr]
    refine effectiveOutcome_eq fun hcl hnn => ?_
    refine endpointFpgas_eq_nil (fun hsk => ?_) hsn
    obtain ⟨e, he, i, hin⟩ := hdv net hnt (by rw [hcl]; decide) hsk
    obtain ⟨f, hf, -⟩ := mem_mapM_of_mem hdr (mem_filterMap.mpr ⟨e, he, hin⟩)
    exact absurd hf (hnn ▸ not_mem_nil)
  rw [← Except.ok.inj hef, ← Except.ok.inj hbs, hsm]
  rfl

theorem lookup_instanceLocations_ne
    {replicas : Replicas}
    (h : instanceLocations clusterAssignment clusters replicas = .ok locations) {id : String}
    (hl : locations.lookup id = some fpgas) : fpgas ≠ [] := by
  obtain ⟨parts, hp, h⟩ := bind_eq_ok.mp h
  cases h
  obtain ⟨part, hpr, hm⟩ := mem_flatten.mp (Keyed.mem_of_lookup hl)
  obtain ⟨cluster, -, hc⟩ := exists_of_mem_mapM hp hpr
  obtain ⟨fpga, -, hc⟩ := bind_eq_ok.mp hc
  rw [← Except.ok.inj hc] at hm
  obtain ⟨i, -, heq⟩ := mem_map.mp hm
  rw [← (Prod.mk.inj heq).2]
  exact cons_ne_nil _ _

/-- **The effective cuts deliver every net, are those of `compute_cut_nets` without replicas, and
pass the validator, exactly when every net that is to be transported has a driver.** -/
theorem effectiveCuts_iff {digest : List CutRecord → String} {fpgas : List FpgaCapacity}
    {clusters : List Cluster} {activeFpgas : List String} {assignment : PartitionAssignment}
    {replicas normalized : Replicas} {built : ReplicationArtifact × List CutRecord × CutMetrics}
    (hprimary : expandClusterAssignment clusters activeFpgas assignment.clusterAssignment =
      .ok assignment.instanceAssignment)
    (hkeys : (replicas.map Prod.fst).Nodup)
    (hbuild : buildReplicationArtifact digest ir fpgas clusters assignment replicas = .ok built)
    (hnormalized : normalizeReplicas replicas assignment.clusterAssignment
      (fpgas.map FpgaCapacity.id) = .ok normalized)
    (hlocations : instanceLocations assignment.clusterAssignment clusters normalized =
      .ok locations) :
    ((∀ net ∈ ir.nets, Transported net →
        Delivered assignment.instanceAssignment locations built.2.1 net) ∧
      effectiveCutsWithoutReplicas ir clusters assignment =
        computeCutNetsWithMetrics ir assignment.instanceAssignment ∧
      ∀ result, applyReplication digest ir fpgas clusters assignment replicas = .ok result →
        ∃ found, validateReplicationArtifact digest ir fpgas clusters result = .ok found) ↔
      Driven ir := by
  obtain ⟨normalized', hnormalized', h⟩ := bind_eq_ok.mp hbuild
  obtain rfl := Except.ok.inj (hnormalized'.symm.trans hnormalized)
  obtain ⟨legal, -, h⟩ := bind_eq_ok.mp h
  obtain ⟨-, h⟩ := raiseIf_bind.mp h
  obtain ⟨proofs, -, h⟩ := bind_eq_ok.mp h
  obtain ⟨locations', hlocations', h⟩ := bind_eq_ok.mp h
  obtain rfl := Except.ok.inj (hlocations'.symm.trans hlocations)
  obtain ⟨resources, -, h⟩ := bind_eq_ok.mp h
  obtain ⟨base, hbase, h⟩ := bind_eq_ok.mp h
  obtain ⟨effective, heffective, h⟩ := bind_eq_ok.mp h
  obtain ⟨baseEffective, hbaseEffective, h⟩ := bind_eq_ok.mp h
  obtain ⟨records, -, h⟩ := bind_eq_ok.mp h
  obtain ⟨copies, -, h⟩ := bind_eq_ok.mp h
  cases h
  obtain ⟨hnodup, hnets⟩ := computeEffectiveCuts_spec heffective
  constructor
  · rintro ⟨hdelivered, -⟩ net hnet hclass ⟨e, he, i, hinst⟩
    by_contra hdriver
    have htransported : Transported net :=
      ⟨fun h => hclass (by rw [h]; decide), fun h => hclass (by rw [h]; decide),
        fun h => hclass (by rw [h.1]; decide)⟩
    obtain ⟨primaryDrivers, drivers, sinks, hcut⟩ := hnets net hnet
    obtain ⟨lists, hlists, -⟩ := bind_eq_ok.mp hcut.sinks_eq
    obtain ⟨at', -, hat⟩ := mem_mapM_of_mem hlists (mem_filterMap.mpr ⟨e, he, hinst⟩)
    have hlookup := lookupOrRaise_eq_ok.mp hat
    obtain ⟨f, hf⟩ := exists_mem_of_ne_nil _ (lookup_instanceLocations_ne hlocations hlookup)
    rcases (hdelivered net hnet htransported).1 f ⟨e, he, i, at', hinst, hlookup, hf⟩ with
      ⟨e', he', i', -, hinst', -⟩ | ⟨-, -, -, -, e', he', i', hinst', -⟩
    · exact hdriver ⟨e', he', i', hinst'⟩
    · exact hdriver ⟨e', he', i', hinst'⟩
  · intro hdriven
    refine ⟨fun net hnet htransported => ?_, ?_, fun result hresult =>
      validate_applyReplication hkeys hresult⟩
    · obtain ⟨primaryDrivers, drivers, sinks, hcut⟩ := hnets net hnet
      refine hcut.delivered hnodup htransported fun hsink => ?_
      by_cases hclass : net.cutClass ∈ REPLICATED_NET_CLASSES
      · -- of the replicated classes only a driven primary input is transported
        have hinput : net.cutClass = .primaryInput := by
          simp only [REPLICATED_NET_CLASSES, mem_cons, not_mem_nil, or_false] at hclass
          rcases hclass with hclass | hclass | hclass
          · exact absurd hclass htransported.1
          · exact absurd hclass htransported.2.1
          · exact hclass
        by_contra hnone
        refine htransported.2.2 ⟨hinput, fun e he => ?_⟩
        cases hinst : e.inst with
        | none => rfl
        | some i => exact absurd ⟨e, he, i, hinst⟩ hnone
      · exact hdriven net hnet hclass hsink
    · exact effectiveCutsWithoutReplicas_eq hdriven hprimary hbase hbaseEffective

end cuts

/-! ### a copied table, and a floating wire -/

def singleCluster (index : ℕ) (id : String) (resources : ResourceVector) : Cluster where
  id := clusterId index
  instances := [id]
  resources := resources
  fixedFpga := none
  groups := []

def twoFpgas : List FpgaCapacity :=
  [{ id := "f0", effectiveCapacity := { lut := 8, ff := 8 } },
    { id := "f1", effectiveCapacity := { lut := 8, ff := 8 } }]

def copiedDesign : EmuIR where
  ports := []
  instances := [{ id := "ff0", type := "FDRE", resources := { ff := 1 } },
    { id := "ff1", type := "FDRE", resources := { ff := 1 } },
    { id := "ff2", type := "FDRE", resources := { ff := 1 } },
    { id := "lut0", type := "LUT1", resources := { lut := 1 } }]
  nets := [{ id := "q0", cutClass := .registerOutput, drivers := [⟨some "ff0", "Q", 0⟩]
             sinks := [⟨some "lut0", "I0", 0⟩] },
    { id := "d1", cutClass := .registerInput, drivers := [⟨some "lut0", "O", 0⟩]
      sinks := [⟨some "ff1", "D", 0⟩, ⟨some "ff2", "D", 0⟩] }]
  instance_ids_nodup := by decide
  net_ids_nodup := by decide
  endpoints_known := by decide

def copiedClusters : List Cluster :=
  [singleCluster 0 "ff0" { ff := 1 }, singleCluster 1 "ff1" { ff := 1 },
    singleCluster 2 "ff2" { ff := 1 }, singleCluster 3 "lut0" { lut := 1 }]

def copiedAssignment : PartitionAssignment where
  clusterAssignment := [("c000000", "f0"), ("c000001", "f0"), ("c000002", "f1"), ("c000003", "f0")]
  instanceAssignment := [("ff0", "f0"), ("ff1", "f0"), ("ff2", "f1"), ("lut0", "f0")]
  cutNets := []
  cutMetrics := cutMetrics []

/-- The table is copied to the other FPGA, which then needs the register only. -/
theorem copiedDesign_delivered : ∃ built locations,
    buildReplicationArtifact (fun _ => "") copiedDesign twoFpgas copiedClusters copiedAssignment
        [("c000003", ["f1"])] = .ok built ∧
      built.2.1.map CutRecord.net = ["q0"] ∧
      ∀ net ∈ copiedDesign.nets, Transported net →
        Delivered copiedAssignment.instanceAssignment locations built.2.1 net := by
  obtain ⟨built, hbuild⟩ := exists_of_isOk (x := buildReplicationArtifact (fun _ => "") copiedDesign
    twoFpgas copiedClusters copiedAssignment [("c000003", ["f1"])]) (by decide +kernel)
  have hcuts : (buildReplicationArtifact (fun _ => "") copiedDesign twoFpgas copiedClusters
      copiedAssignment [("c000003", ["f1"])]).toOption.map
        (fun built => built.2.1.map CutRecord.net) = some ["q0"] := by decide +kernel
  rw [hbuild] at hcuts
  obtain ⟨locations, hlocations⟩ := exists_of_isOk (x := instanceLocations
    copiedAssignment.clusterAssignment copiedClusters [("c000003", ["f1"])]) (by decide +kernel)
  have hprimary : expandClusterAssignment copiedClusters ["f0", "f1"]
      copiedAssignment.clusterAssignment = .ok copiedAssignment.instanceAssignment := rfl
  exact ⟨built, locations, hbuild, Option.some.inj hcuts,
    ((effectiveCuts_iff hprimary (by decide) hbuild rfl hlocations).mpr (by decide +kernel)).1⟩

def floatingDesign : EmuIR where
  ports := []
  instances := [{ id := "lut0", type := "LUT1", resources := { lut := 1 } }]
  nets := [{ id := "w0", cutClass := .undriven, drivers := [], sinks := [⟨some "lut0", "I0", 0⟩] }]
  instance_ids_nodup := by decide
  net_ids_nodup := by decide
  endpoints_known := by decide

def floatingAssignment : PartitionAssignment where
  clusterAssignment := [("c000000", "f0")]
  instanceAssignment := [("lut0", "f0")]
  cutNets := []
  cutMetrics := cutMetrics []

/-- The open input is cut, from nowhere to its own FPGA. -/
theorem floatingDesign_cut : (buildReplicationArtifact (fun _ => "") floatingDesign twoFpgas
        [singleCluster 0 "lut0" { lut := 1 }] floatingAssignment []).isOk = true ∧
      ¬ effectiveCutsWithoutReplicas floatingDesign [singleCluster 0 "lut0" { lut := 1 }]
          floatingAssignment =
        computeCutNetsWithMetrics floatingDesign floatingAssignment.instanceAssignment := by
  refine ⟨by decide +kernel, fun h => ?_⟩
  have hcuts := congrArg Except.toOption h
  exact absurd hcuts (by decide +kernel)

end EmuFlow.Replication
