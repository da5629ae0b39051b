import EmuFlow.StaProjection.Database

/-!
# The cuts a projection works with

The cuts of an assignment without replicas, by `compute_cut_nets`, and the effective cuts of an
accepted replication are told by the same facts: which FPGAs have copies of the drivers and of the
sinks of a net.
-/

namespace EmuFlow.StaProjection

open Check SortedSet EmuFlow.Partition Replication List

/-- The cuts are those of the locations, and their sources are the FPGAs of the original drivers. -/
structure CutsOf (ir : EmuIR) (primary : InstanceAssignment) (locations : Locations)
    (cuts : List CutRecord) : Prop where
  located : ∀ net ∈ ir.nets, ∀ e ∈ net.drivers ++ net.sinks, ∀ i, e.inst = some i →
    ∃ fpgas, locations.lookup i = some fpgas
  nodup : (cuts.map CutRecord.net).Nodup
  exists_net : ∀ cut ∈ cuts, ∃ net ∈ ir.nets, cut.net = net.id
  exists_cut : ∀ net ∈ ir.nets, net.cutClass ≠ .clock → net.cutClass ≠ .reset →
    (∃ f, PinnedAt primary net.drivers f) → ∀ f, CopyAt locations net.sinks f →
    ¬ CopyAt locations net.drivers f → ∃ cut ∈ cuts, cut.net = net.id
  of_cut : ∀ net ∈ ir.nets, ∀ cut ∈ cuts, cut.net = net.id →
    (net.cutClass ≠ .clock ∧ net.cutClass ≠ .reset) ∧ cut.sourceFpgas.Nodup ∧
      (∀ f, f ∈ cut.sourceFpgas ↔ PinnedAt primary net.drivers f) ∧
      (∀ f, f ∈ cut.sinkFpgas ↔ CopyAt locations net.sinks f ∧ ¬ CopyAt locations net.drivers f) ∧
      cut.sinkFpgas ≠ []

def PrimaryFirst (primary : InstanceAssignment) (locations : Locations) : Prop :=
  ∀ i fpgas, locations.lookup i = some fpgas → ∃ p, primary.lookup i = some p ∧ p ∈ fpgas

variable {ir : EmuIR} {primary : InstanceAssignment} {locations : Locations}
  {cuts : List CutRecord} {metrics : CutMetrics}

theorem effectiveOutcome_not_global {net : Net} {primaryDrivers drivers sinks : List String}
    {cut : CutRecord} (h : (effectiveOutcome net primaryDrivers drivers sinks).cut = some cut) :
    (net.cutClass ≠ .clock ∧ net.cutClass ≠ .reset) ∧ cut.sinkFpgas ≠ [] := by
  unfold effectiveOutcome at h
  dsimp only at h
  split at h
  · cases h
  · next hg =>
    split at h
    · cases h
    · obtain ⟨hne, -, -, hs⟩ := cutRecord_eq_some h
      exact ⟨not_or.mp hg, hs ▸ hne⟩

theorem lookup_of_endpointLocations {endpoints : List Endpoint} {found : List String}
    (h : endpointLocations locations endpoints = .ok found) {e : Endpoint} (he : e ∈ endpoints)
    {i : String} (hi : e.inst = some i) : ∃ fpgas, locations.lookup i = some fpgas := by
  obtain ⟨lists, hls, -⟩ := bind_eq_ok.mp h
  obtain ⟨fpgas, -, hl⟩ := mem_mapM_of_mem hls (mem_filterMap.mpr ⟨e, he, hi⟩)
  exact ⟨fpgas, lookupOrRaise_eq_ok.mp hl⟩

theorem cutsOf_effective {counts : EndpointCounts}
    (h : computeEffectiveCuts ir primary locations = .ok (cuts, metrics, counts)) :
    CutsOf ir primary locations cuts := by
  obtain ⟨hnd, hnt⟩ := computeEffectiveCuts_spec h
  refine ⟨fun net hnet e he i hi => ?_, hnd, fun cut hmm => ?_, ?_, ?_⟩
  · obtain ⟨_, _, _, hct⟩ := hnt net hnet
    rcases List.mem_append.mp he with he | he
    · exact lookup_of_endpointLocations hct.drivers_eq he hi
    · exact lookup_of_endpointLocations hct.sinks_eq he hi
  · obtain ⟨outcomes, hot, h⟩ := bind_eq_ok.mp h
    cases h
    obtain ⟨outcome, hoc, hsm⟩ := mem_filterMap.mp (mem_sortedBy.mp hmm)
    obtain ⟨turn, htn, rfl⟩ := mem_map.mp hoc
    obtain ⟨net, hnet, hnr⟩ := exists_of_mem_mapM hot htn
    obtain ⟨_, _, _, -, -, -, -, heq⟩ := effectiveTurn_eq_ok hnr
    exact ⟨net, hnet, (effectiveOutcome_cut (heq ▸ hsm)).1⟩
  · rintro net hnet hcl hrs ⟨d, hd⟩ f hsk hrm
    obtain ⟨primaryDrivers, drivers, sinks, hct⟩ := hnt net hnet
    have hdr : primaryDrivers ≠ [] :=
      ne_nil_of_mem ((mem_endpointFpgas hct.primaryDrivers_eq).mpr hd)
    have htr : Transported net := by
      refine ⟨hcl, hrs, fun hin => ?_⟩
      obtain ⟨e, he, i, hi, -⟩ := hd
      rw [hin.2 e he] at hi
      cases hi
    obtain ⟨cut, hsm⟩ := effectiveOutcome_of_remote htr (.inl hdr)
      ((mem_endpointLocations hct.sinks_eq).mpr hsk)
      fun hmm => hrm ((mem_endpointLocations hct.drivers_eq).mp hmm)
    obtain ⟨hmm, hid⟩ := (hct.mem_cuts cut).mpr hsm
    exact ⟨cut, hmm, hid⟩
  · intro net hnet cut hmm hid
    obtain ⟨primaryDrivers, drivers, sinks, hct⟩ := hnt net hnet
    have hsm := (hct.mem_cuts cut).mp ⟨hmm, hid⟩
    obtain ⟨hcs, hne⟩ := effectiveOutcome_not_global hsm
    obtain ⟨-, hsr, hsn⟩ := effectiveOutcome_cut hsm
    refine ⟨hcs, ?_, fun f => ?_, fun f => ?_, hne⟩
    · rw [hsr]
      exact nodup_sortedSet _
    · rw [hsr, mem_sortedSet]
      exact mem_endpointFpgas hct.primaryDrivers_eq
    · rw [hsn, mem_endpointLocations hct.sinks_eq, mem_endpointLocations hct.drivers_eq]

/-! ## cuts without replicas -/

theorem lookup_unreplicated (primary : InstanceAssignment) (i : String) :
    (unreplicated primary).lookup i = (primary.lookup i).map fun f => [f] :=
  Keyed.lookup_map_snd (fun f => [f]) i primary

theorem copyAt_unreplicated {endpoints : List Endpoint} {f : String} :
    CopyAt (unreplicated primary) endpoints f ↔ PinnedAt primary endpoints f := by
  constructor
  · rintro ⟨e, he, i, fpgas, hi, hl, hf⟩
    rw [lookup_unreplicated, Option.map_eq_some_iff] at hl
    obtain ⟨g, hg, rfl⟩ := hl
    rw [mem_singleton.mp hf]
    exact ⟨e, he, i, hi, hg⟩
  · rintro ⟨e, he, i, hi, hl⟩
    refine ⟨e, he, i, [f], hi, ?_, mem_singleton_self f⟩
    rw [lookup_unreplicated, hl]
    rfl

theorem primaryFirst_unreplicated : PrimaryFirst primary (unreplicated primary) := by
  intro i fpgas h
  rw [lookup_unreplicated, Option.map_eq_some_iff] at h
  obtain ⟨f, hf, rfl⟩ := h
  exact ⟨f, hf, mem_singleton_self f⟩

theorem netOutcome_cut_eq_some {net : Net} {drivers sinks : List String} {cut : CutRecord}
    (h : (netOutcome net drivers sinks).cut = some cut) :
    (net.cutClass ≠ .clock ∧ net.cutClass ≠ .reset) ∧ cut.net = net.id ∧
      cut.sourceFpgas = sortedSet drivers ∧ cut.sinkFpgas ≠ [] ∧
      ∀ f, f ∈ cut.sinkFpgas ↔ f ∈ sinks ∧ f ∉ drivers := by
  unfold netOutcome at h
  dsimp only at h
  split at h
  · cases h
  next hg =>
  split at h
  · cases h
  split at h
  · cases h
  · obtain ⟨hne, hn, hsr, hs⟩ := cutRecord_eq_some h
    refine ⟨not_or.mp hg, hn, hsr, hs ▸ hne, fun f => ?_⟩
    rw [hs, mem_filter, mem_sortedSet, decide_eq_true_eq, mem_sortedSet]

theorem exists_netOutcome_cut {net : Net} {drivers sinks : List String} {f : String}
    (hc : net.cutClass ≠ .clock) (hrs : net.cutClass ≠ .reset) (hdr : drivers ≠ [])
    (hsn : f ∈ sinks) (hr : f ∉ drivers) :
    ∃ cut, (netOutcome net drivers sinks).cut = some cut := by
  have hs : sortedSet drivers ≠ [] := by
    obtain ⟨d, hd⟩ := exists_mem_of_ne_nil _ hdr
    exact ne_nil_of_mem (mem_sortedSet.mpr hd)
  unfold netOutcome
  dsimp only
  rw [if_neg (not_or.mpr ⟨hc, hrs⟩), if_neg fun h => hs h.1,
    if_neg fun h => hs h.1, cutRecord, if_neg]
  · exact ⟨_, rfl⟩
  · refine ne_nil_of_mem (mem_filter.mpr ⟨mem_sortedSet.mpr hsn, ?_⟩)
    rw [decide_eq_true_eq, mem_sortedSet]
    exact hr

/-- Without replicas the effective cuts are those of the partition. -/
theorem cutsOf_baseline (h : computeCutNetsWithMetrics ir primary = .ok (cuts, metrics)) :
    CutsOf ir primary (unreplicated primary) cuts := by
  obtain ⟨outcomes, hot, h⟩ := bind_eq_ok.mp h
  cases h
  have htr : ∀ net outcome, cutTurn primary net = .ok outcome → ∃ drivers sinks,
      endpointFpgas primary net.drivers = .ok drivers ∧
      endpointFpgas primary net.sinks = .ok sinks ∧ outcome = netOutcome net drivers sinks := by
    intro net outcome h
    obtain ⟨drivers, hdr, h⟩ := bind_eq_ok.mp h
    obtain ⟨sinks, hsn, h⟩ := bind_eq_ok.mp h
    exact ⟨drivers, sinks, hdr, hsn, (Except.ok.inj h).symm⟩
  refine ⟨fun net hnet e he i hi => ?_, ?_, fun cut hmm => ?_, ?_, ?_⟩
  · obtain ⟨outcome, -, hnt⟩ := mem_mapM_of_mem hot hnet
    obtain ⟨drivers, sinks, hdr, hsn, -⟩ := htr net outcome hnt
    rcases List.mem_append.mp he with he | he
    · exact lookup_of_endpointLocations (endpointLocations_unreplicated hdr) he hi
    · exact lookup_of_endpointLocations (endpointLocations_unreplicated hsn) he hi
  · rw [((sortedBy_perm CutRecord.net _).map CutRecord.net).nodup_iff]
    refine (sublist_of_mapM (k := Net.id) (fun net outcome cut hnet hct => ?_)
      hot).nodup ir.net_ids_nodup
    obtain ⟨drivers, sinks, -, -, rfl⟩ := htr net outcome hnet
    exact (netOutcome_cut_eq_some hct).2.1
  · obtain ⟨outcome, hoc, hsm⟩ := mem_filterMap.mp (mem_sortedBy.mp hmm)
    obtain ⟨net, hnet, hnt⟩ := exists_of_mem_mapM hot hoc
    obtain ⟨drivers, sinks, -, -, rfl⟩ := htr net outcome hnt
    exact ⟨net, hnet, (netOutcome_cut_eq_some hsm).2.1⟩
  · rintro net hnet hcl hrs ⟨d, hd⟩ f hsi hrm
    obtain ⟨outcome, hmm, hnt⟩ := mem_mapM_of_mem hot hnet
    obtain ⟨drivers, sinks, hdr, hsn, rfl⟩ := htr net outcome hnt
    rw [copyAt_unreplicated] at hsi hrm
    obtain ⟨cut, hct⟩ := exists_netOutcome_cut hcl hrs
      (ne_nil_of_mem ((mem_endpointFpgas hdr).mpr hd))
      ((mem_endpointFpgas hsn).mpr hsi)
      fun hm => hrm ((mem_endpointFpgas hdr).mp hm)
    exact ⟨cut, mem_sortedBy.mpr (mem_filterMap.mpr ⟨_, hmm, hct⟩),
      (netOutcome_cut_eq_some hct).2.1⟩
  · intro net hnet cut hct hid
    obtain ⟨outcome, hmm, hsm⟩ := mem_filterMap.mp (mem_sortedBy.mp hct)
    obtain ⟨net', hnet', hnt⟩ := exists_of_mem_mapM hot hmm
    obtain ⟨drivers, sinks, hdr, hsn, rfl⟩ := htr net' outcome hnt
    obtain ⟨hcs, hnd, hsr, hne, hsk⟩ := netOutcome_cut_eq_some hsm
    obtain rfl := ir.net_ext hnet' hnet (hnd.symm.trans hid)
    refine ⟨hcs, ?_, fun f => ?_, fun f => ?_, hne⟩
    · rw [hsr]
      exact nodup_sortedSet _
    · rw [hsr, mem_sortedSet]
      exact mem_endpointFpgas hdr
    · rw [hsk, mem_endpointFpgas hsn, mem_endpointFpgas hdr, copyAt_unreplicated,
        copyAt_unreplicated]
      rfl

end EmuFlow.StaProjection
