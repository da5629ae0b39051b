import EmuFlow.StaProjection.Cuts

/-!
# The boundaries a chain crosses

A timing path is a chain from driver to sink. Seen from its end, each instance is at its copy on the
FPGA where the chain goes on, where it has one, and else at its original; then the chain leaves the
FPGA of the original.
-/

namespace EmuFlow.StaProjection

open Check SortedSet Routing EmuFlow.Partition Replication List Prod Option Except

/-! ## chains -/

def IsChain (ir : EmuIR) : String → List (String × String) → Prop
  | _, [] => True
  | start, (id, next) :: hops => (∃ net ∈ ir.nets, net.id = id ∧
      (∃ e ∈ net.drivers, e.inst = some start) ∧ ∃ e ∈ net.sinks, e.inst = some next) ∧
    IsChain ir next hops

instance decidableIsChain (ir : EmuIR) : (start : String) → (hops : List (String × String)) →
    Decidable (IsChain ir start hops)
  | _, [] => .isTrue trivial
  | _, (_, next) :: hops =>
    have := decidableIsChain ir next hops
    inferInstanceAs (Decidable ((∃ net ∈ ir.nets, _) ∧ IsChain ir next hops))

def endOf : String → List (String × String) → String
  | start, [] => start
  | _, (_, next) :: hops => endOf next hops

def original (primary : InstanceAssignment) (i : String) : String := (primary.lookup i).getD ""

def copies (locations : Locations) (i : String) : List String := (locations.lookup i).getD []

def trace (primary : InstanceAssignment) (locations : Locations) :
    String → List (String × String) → String × List CutTransition
  | start, [] => (original primary start, [])
  | start, (net, next) :: hops =>
    let rest := trace primary locations next hops
    if rest.1 ∈ copies locations start then rest
    else (original primary start,
      { net := net, source := original primary start, sink := rest.1 } :: rest.2)

def IsCutNet (locations : Locations) (net : Net) : Prop :=
  net.cutClass ≠ .clock ∧ net.cutClass ≠ .reset ∧
    ∃ f, CopyAt locations net.sinks f ∧ ¬ CopyAt locations net.drivers f

structure StepCarried (primary : InstanceAssignment) (locations : Locations) (net : Net)
    (driver fpga : String) : Prop where
  /-- A step off the FPGAs of the driver is not on a clock or reset, nor from another driver. -/
  leaves : fpga ∉ copies locations driver → net.cutClass ≠ .clock ∧ net.cutClass ≠ .reset ∧
    ¬ CopyAt locations net.drivers fpga
  /-- The drivers of a cut net are on one FPGA. -/
  source : IsCutNet locations net →
    ∀ f, PinnedAt primary net.drivers f → f = original primary driver
  /-- A net that is still cut for another FPGA is not followed from a replica. -/
  copy : IsCutNet locations net → CopyAt locations net.drivers fpga → fpga = original primary driver

def Carried (ir : EmuIR) (primary : InstanceAssignment) (locations : Locations) :
    String → List (String × String) → Prop
  | _, [] => True
  | start, (id, next) :: hops => Carried ir primary locations next hops ∧
    ∀ net ∈ ir.nets, net.id = id →
      StepCarried primary locations net start (trace primary locations next hops).1

variable {ir : EmuIR} {primary : InstanceAssignment} {locations : Locations}

theorem trace_cons (start id next : String) (hops : List (String × String)) :
    trace primary locations start ((id, next) :: hops) =
      if (trace primary locations next hops).1 ∈ copies locations start then
        trace primary locations next hops
      else (original primary start, { net := id, source := original primary start
                                      sink := (trace primary locations next hops).1 } ::
        (trace primary locations next hops).2) := rfl

theorem trace_nets_subset : ∀ {hops : List (String × String)} {start : String},
    ∀ net ∈ (trace primary locations start hops).2.map CutTransition.net, net ∈ hops.map fst
  | [], _ => by simp [trace]
  | (id, next) :: hops, start => by
    intro net hn
    rw [trace_cons] at hn
    split at hn
    · exact mem_cons_of_mem _ (trace_nets_subset net hn)
    · rw [map_cons, mem_cons] at hn
      rcases hn with rfl | hn
      · exact mem_cons_self
      · exact mem_cons_of_mem _ (trace_nets_subset net hn)

variable {fpgas : List String} {i : String}

theorem original_mem_copies (hfirst : PrimaryFirst primary locations)
    (h : locations.lookup i = some fpgas) :
    primary.lookup i = some (original primary i) ∧ original primary i ∈ copies locations i := by
  obtain ⟨p, hp, hm⟩ := hfirst i fpgas h
  simp [original, copies, hp, h, hm]

theorem trace_mem_copies (hfirst : PrimaryFirst primary locations) {start : String}
    (h : locations.lookup start = some fpgas)
    (hops : List (String × String)) :
    (trace primary locations start hops).1 ∈ copies locations start := by
  have ho := (original_mem_copies hfirst h).2
  cases hops with
  | nil => exact ho
  | cons hop hops =>
    rw [trace_cons]
    split
    · next hm => exact hm
    · exact ho

theorem copyAt_of_mem {endpoints : List Endpoint} {e : Endpoint} (he : e ∈ endpoints)
    (hi : e.inst = some i) {f : String} (hf : f ∈ copies locations i) :
    CopyAt locations endpoints f := by
  cases hl : locations.lookup i with
  | none => simp [copies, hl] at hf
  | some fpgas => exact ⟨e, he, i, fpgas, hi, hl, by simpa [copies, hl] using hf⟩

/-! ## one net -/

def hopStep (assignment : ProjectedAssignment) (pathId : String)
    (state : Option (String × List CutTransition)) (net : String) :
    Result (Option (String × List CutTransition)) :=
  if net ∈ assignment.cutNets.map CutRecord.net then transitionStep assignment pathId state net
  else .ok state

variable {assignment : ProjectedAssignment}

theorem hopStep_grows {pathId net target target' : String}
    {reversed reversed' : List CutTransition}
    (h : hopStep assignment pathId (some (target, reversed)) net = .ok
      (some (target', reversed'))) :
    reversed' = reversed ∨
      ∃ transition : CutTransition, transition.net = net ∧
        reversed' = reversed ++ [transition] := by
  unfold hopStep at h
  split at h
  · unfold transitionStep at h
    dsimp only at h
    split at h
    · cases h
    · split at h
      · split at h
        · obtain ⟨-, rfl⟩ := mk.inj (some.inj (ok.inj h))
          exact .inl rfl
        · split at h
          · cases h
          · obtain ⟨-, rfl⟩ := mk.inj (some.inj (ok.inj h))
            exact .inr ⟨_, rfl, rfl⟩
      · cases h
  · obtain ⟨-, rfl⟩ := mk.inj (some.inj (ok.inj h))
    exact .inl rfl

section

variable {assignment : ProjectedAssignment} {pathId : String}
  (hcuts : CutsOf ir primary locations assignment.cutNets)
  (hfirst : PrimaryFirst primary locations)
include hcuts

variable {net : Net}

theorem cutByNet_eq {cut : CutRecord} (hc : cut ∈ assignment.cutNets)
    (hid : cut.net = net.id) : assignment.cutByNet net.id = some cut := by
  rw [← hid]
  refine Keyed.find_of_mem ?_ (mem_reverse.mpr hc)
  rw [map_reverse, nodup_reverse]
  exact hcuts.nodup

theorem exists_cut_of_isCutNet (hn : net ∈ ir.nets)
    (hp : ∃ f, PinnedAt primary net.drivers f) (h : IsCutNet locations net) :
    net.id ∈ assignment.cutNets.map CutRecord.net := by
  obtain ⟨hc, hrs, f, hs, hr⟩ := h
  obtain ⟨cut, hct, hid⟩ := hcuts.exists_cut net hn hc hrs hp f hs hr
  exact mem_map.mpr ⟨cut, hct, hid⟩

include hfirst

theorem hopStep_of_carried (hnt : net ∈ ir.nets) {driver fpga : String}
    (hdr : ∃ e ∈ net.drivers, e.inst = some driver) (hsk : CopyAt locations net.sinks fpga)
    (h : StepCarried primary locations net driver fpga) (reversed : List CutTransition) :
    hopStep assignment pathId (some (fpga, reversed)) net.id =
      .ok (some (if fpga ∈ copies locations driver then (fpga, reversed)
        else (original primary driver, reversed ++
          [{ net := net.id, source := original primary driver, sink := fpga }]))) := by
  obtain ⟨e, he, hin⟩ := hdr
  obtain ⟨fpgas, hlc⟩ := hcuts.located net hnt e (mem_append_left _ he) driver hin
  obtain ⟨hor, hcp⟩ := original_mem_copies hfirst hlc
  have hpn : PinnedAt primary net.drivers (original primary driver) :=
    ⟨e, he, driver, hin, hor⟩
  unfold hopStep
  split
  · next hmm =>
    obtain ⟨cut, hcu, hid⟩ := mem_map.mp hmm
    obtain ⟨⟨hcl, hrs⟩, hnd, hsr, hsn, hne⟩ := hcuts.of_cut net hnt cut hcu hid
    obtain ⟨g, hg⟩ := exists_mem_of_ne_nil _ hne
    have hct : IsCutNet locations net := ⟨hcl, hrs, g, (hsn g).mp hg⟩
    have hon : cut.sourceFpgas = [original primary driver] := by
      refine perm_singleton.mp ((perm_ext_iff_of_nodup hnd (nodup_singleton _)).mpr fun f => ?_)
      rw [hsr, mem_singleton]
      exact ⟨h.source hct f, fun hf => hf ▸ hpn⟩
    rw [transitionStep, cutByNet_eq hcuts hcu hid]
    dsimp only
    rw [hon]
    dsimp only
    by_cases hsm : original primary driver = fpga
    · rw [if_pos hsm, if_pos (hsm ▸ hcp)]
    · have hrm : ¬ CopyAt locations net.drivers fpga := fun hc =>
        hsm (h.copy hct hc).symm
      have hlf : fpga ∉ copies locations driver := fun hc =>
        hrm (copyAt_of_mem he hin hc)
      rw [if_neg hsm, if_neg (not_not.mpr ((hsn fpga).mpr ⟨hsk, hrm⟩)), if_neg hlf]
  · next hnn =>
    have hst : fpga ∈ copies locations driver := by
      by_contra hlf
      obtain ⟨hcl, hrs, hrm⟩ := h.leaves hlf
      exact hnn (exists_cut_of_isCutNet hcuts hnt ⟨_, hpn⟩
        ⟨hcl, hrs, fpga, hsk, hrm⟩)
    rw [if_pos hst]

theorem hopStep_of_not_carried (hnt : net ∈ ir.nets) {driver fpga : String}
    (hdr : ∃ e ∈ net.drivers, e.inst = some driver)
    (h : ¬ StepCarried primary locations net driver fpga) {reversed : List CutTransition}
    {state : String × List CutTransition}
    (hst : hopStep assignment pathId (some (fpga, reversed)) net.id = .ok (some state)) :
    fpga ∉ copies locations driver ∧ state.2 = reversed := by
  obtain ⟨e, he, hin⟩ := hdr
  obtain ⟨fpgas, hlc⟩ := hcuts.located net hnt e (mem_append_left _ he) driver hin
  obtain ⟨hor, hcp⟩ := original_mem_copies hfirst hlc
  have hpn : PinnedAt primary net.drivers (original primary driver) :=
    ⟨e, he, driver, hin, hor⟩
  unfold hopStep at hst
  split at hst
  · next hme =>
    obtain ⟨cut, hct, hid⟩ := mem_map.mp hme
    obtain ⟨⟨hcl, hrs⟩, -, hsr, hsk, -⟩ := hcuts.of_cut net hnt cut hct hid
    rw [transitionStep, cutByNet_eq hcuts hct hid] at hst
    dsimp only at hst
    have hmm := (hsr _).mpr hpn
    split at hst
    · next source hon =>
      rw [hon, mem_singleton] at hmm
      subst hmm
      have hpi : ∀ f, PinnedAt primary net.drivers f → f = original primary driver := by
        intro f hf
        have hf' := (hsr f).mpr hf
        rw [hon, mem_singleton] at hf'
        exact hf'
      split at hst
      · next hsm =>
        -- on the FPGA of the original every step is carried
        exact absurd ⟨fun hlf => absurd (hsm ▸ hcp) hlf, fun _ => hpi,
          fun _ _ => hsm.symm⟩ h
      · split at hst
        · cases hst
        · next hsn =>
          -- a delivered sink has no copy of a driver
          obtain ⟨-, hrm⟩ := (hsk fpga).mp (not_not.mp hsn)
          exact absurd ⟨fun _ => ⟨hcl, hrs, hrm⟩, fun _ => hpi,
            fun _ hc => absurd hc hrm⟩ h
    · cases hst
  · next hnn =>
    cases hst
    refine ⟨fun hsy => h ⟨fun hlf => absurd hsy hlf, fun hc => ?_, fun hc => ?_⟩, rfl⟩
    · exact absurd (exists_cut_of_isCutNet hcuts hnt ⟨_, hpn⟩ hc) hnn
    · exact absurd (exists_cut_of_isCutNet hcuts hnt ⟨_, hpn⟩ hc) hnn

/-- Along a carried chain the loop finds the boundaries; along any other it gives up, raises or
misses a boundary. The induction is on the chain, whose first net comes last in the loop. -/
theorem foldlM_hopStep (pathId : String) : ∀ {hops : List (String × String)} {start : String},
    IsChain ir start hops → (hops.map fst).Nodup →
    (Carried ir primary locations start hops →
      (hops.map fst).reverse.foldlM (hopStep assignment pathId)
        (some (original primary (endOf start hops), [])) =
          .ok (some ((trace primary locations start hops).1,
            (trace primary locations start hops).2.reverse))) ∧
    ∀ target reversed, (hops.map fst).reverse.foldlM (hopStep assignment pathId)
        (some (original primary (endOf start hops), [])) = .ok (some (target, reversed)) →
      (∀ net ∈ reversed.map CutTransition.net, net ∈ hops.map fst) ∧
      (¬ Carried ir primary locations start hops →
        ∃ net ∈ (trace primary locations start hops).2.map CutTransition.net,
          net ∉ reversed.map CutTransition.net)
  | [], start, _, _ => by
    refine ⟨fun _ => rfl, fun target reversed h => ?_⟩
    obtain ⟨-, rfl⟩ := mk.inj (some.inj (ok.inj h))
    exact ⟨by simp, fun h => absurd trivial h⟩
  | (id, next) :: hops, start, hch, hnd => by
    obtain ⟨⟨net, hnt, rfl, hdr, e, he, hin⟩, hrs⟩ := hch
    rw [map_cons, nodup_cons] at hnd
    obtain ⟨hcr, hrn⟩ := foldlM_hopStep pathId hrs hnd.2
    obtain ⟨fpgas, hlc⟩ := hcuts.located net hnt e (mem_append_right _ he) next hin
    have hsn := copyAt_of_mem he hin (trace_mem_copies hfirst hlc hops)
    -- the ids are distinct, so the chain's net is the one of its id
    have hsp : (∀ n ∈ ir.nets, n.id = net.id → StepCarried primary locations n start
        (trace primary locations next hops).1) ↔
        StepCarried primary locations net start (trace primary locations next hops).1 :=
      ⟨fun h => h net hnt rfl, fun h n hn hid => ir.net_ext hn hnt hid ▸ h⟩
    rw [map_cons, reverse_cons, foldlM_append, endOf]
    simp only [Carried, hsp, foldlM_cons, foldlM_nil, bind_pure]
    constructor
    · rintro ⟨hal, hon⟩
      rw [hcr hal]
      refine (hopStep_of_carried hcuts hfirst hnt hdr hsn hon _).trans ?_
      rw [trace_cons]
      split
      · rfl
      · rw [reverse_cons]
    · intro target reversed h
      obtain ⟨state, hst, h⟩ := bind_eq_ok.mp h
      cases state with
      | none =>
        -- a chain that is given up stays so
        have hnn : hopStep assignment pathId none net.id = .ok none := by
          unfold hopStep
          split <;> rfl
        rw [hnn] at h
        cases h
      | some state =>
        obtain ⟨target', reversed'⟩ := state
        obtain ⟨hsb, hms⟩ := hrn target' reversed' hst
        have hgr := hopStep_grows h
        constructor
        · intro n hn
          rcases hgr with rfl | ⟨transition, hid, rfl⟩
          · exact mem_cons_of_mem _ (hsb n hn)
          · rw [map_append, List.mem_append] at hn
            rcases hn with hn | hn
            · exact mem_cons_of_mem _ (hsb n hn)
            · rw [map_singleton, mem_singleton, hid] at hn
              rw [hn]
              exact mem_cons_self
        · intro hno
          by_cases hal : Carried ir primary locations next hops
          · have hon := fun hon => hno ⟨hal, hon⟩
            rw [hcr hal] at hst
            obtain ⟨rfl, rfl⟩ := mk.inj (some.inj (ok.inj hst))
            obtain ⟨hlf, hsm⟩ := hopStep_of_not_carried hcuts hfirst hnt hdr hon h
            have hsm : reversed = (trace primary locations next hops).2.reverse := hsm
            refine ⟨net.id, ?_, ?_⟩
            · rw [trace_cons, if_neg hlf]
              exact mem_cons_self
            · rw [hsm, map_reverse, mem_reverse]
              exact fun hmm => hnd.1 (trace_nets_subset _ hmm)
          · obtain ⟨n, hn, hnn⟩ := hms hal
            have hne : n ≠ net.id := fun heq => hnd.1 (heq ▸ trace_nets_subset n hn)
            refine ⟨n, ?_, ?_⟩
            · rw [trace_cons]
              split
              · exact hn
              · exact mem_cons_of_mem _ hn
            · rcases hgr with rfl | ⟨transition, hid, rfl⟩
              · exact hnn
              · rw [map_append, List.mem_append, not_or]
                refine ⟨hnn, ?_⟩
                rw [map_singleton, mem_singleton, hid]
                exact hne

end

/-! ## the transitions of a timing path -/

structure RealPath (ir : EmuIR) (path : DatabasePath) (start : String)
    (hops : List (String × String)) : Prop where
  startpoint_eq : path.startpoint = some ⟨some start⟩
  endpoint_eq : path.endpoint = some ⟨some (endOf start hops)⟩
  nets_eq : path.pathNets = hops.map fst
  hops_ne_nil : hops ≠ []
  chain : IsChain ir start hops

def Named (locations : Locations) : Prop :=
  ∀ i fpgas, locations.lookup i = some fpgas → "" ∉ fpgas

theorem located_ends {cuts : List CutRecord} (hcuts : CutsOf ir primary locations cuts) :
    ∀ {hops : List (String × String)} {start : String}, hops ≠ [] → IsChain ir start hops →
      (∃ fpgas, locations.lookup start = some fpgas) ∧
        ∃ fpgas, locations.lookup (endOf start hops) = some fpgas
  | [], _, hne, _ => absurd rfl hne
  | (id, next) :: hops, start, _, ⟨⟨net, hn, _, ⟨d, hd, hs⟩, e, he, hi⟩, hr⟩ => by
    refine ⟨hcuts.located net hn d (mem_append_left _ hd) start hs, ?_⟩
    cases hops with
    | nil => exact hcuts.located net hn e (mem_append_right _ he) next hi
    | cons hop hops => exact (located_ends hcuts (cons_ne_nil hop hops) hr).2

theorem partition_eq_some
    (hfirst : PrimaryFirst assignment.instanceAssignment locations) (hn : Named locations)
    (h : locations.lookup i = some fpgas) :
    assignment.partition ⟨some i⟩ = some (original assignment.instanceAssignment i) := by
  obtain ⟨hl, hm⟩ := original_mem_copies hfirst h
  have hnm : original assignment.instanceAssignment i ≠ "" := by
    intro he
    rw [he, copies, h] at hm
    exact hn i fpgas h hm
  simp [ProjectedAssignment.partition, hl, hnm]

theorem foldlM_candidates (assignment : ProjectedAssignment) (pathId : String)
    (nets : List String) (state : Option (String × List CutTransition)) :
    (candidates assignment nets).reverse.foldlM (transitionStep assignment pathId) state =
      nets.reverse.foldlM (hopStep assignment pathId) state := by
  unfold candidates hopStep
  rw [← filter_reverse, foldlM_filter]
  simp only [decide_eq_true_eq]
  rfl

theorem pathTransitions_iff {path : DatabasePath}
    {start : String} {hops : List (String × String)}
    (hcuts : CutsOf ir assignment.instanceAssignment locations assignment.cutNets)
    (hfirst : PrimaryFirst assignment.instanceAssignment locations) (hnm : Named locations)
    (hpt : RealPath ir path start hops) (hnd : path.pathNets.Nodup) :
    pathTransitions assignment path (candidates assignment path.pathNets) =
        .ok ((trace assignment.instanceAssignment locations start hops).2.map CutTransition.net,
          some (trace assignment.instanceAssignment locations start hops).2) ↔
      Carried ir assignment.instanceAssignment locations start hops ∧
        (trace assignment.instanceAssignment locations start hops).1 =
          original assignment.instanceAssignment start := by
  obtain ⟨⟨startFpgas, hstr⟩, endFpgas, hen⟩ := located_ends hcuts hpt.hops_ne_nil hpt.chain
  obtain ⟨hst, -⟩ := original_mem_copies hfirst hstr
  have hpr := partition_eq_some hfirst hnm hen
  rw [hpt.nets_eq] at hnd
  obtain ⟨hcr, hrn⟩ := foldlM_hopStep hcuts hfirst path.id hpt.chain hnd
  unfold pathTransitions
  rw [hpt.startpoint_eq, hpt.endpoint_eq, hpt.nets_eq]
  dsimp only
  rw [hpr]
  dsimp only
  rw [foldlM_candidates]
  constructor
  · intro h
    obtain ⟨state, hsta, h⟩ := bind_eq_ok.mp h
    cases state with
    | none =>
      obtain ⟨-, hgv⟩ := mk.inj (ok.inj h)
      cases hgv
    | some state =>
      obtain ⟨target, reversed⟩ := state
      obtain ⟨hsm, h⟩ := raiseIf_bind.mp h
      obtain ⟨-, hsp⟩ := mk.inj (ok.inj h)
      have hrv := some.inj hsp
      have hal : Carried ir assignment.instanceAssignment locations start hops := by
        by_contra hno
        obtain ⟨net, hnt, hms⟩ := (hrn target reversed hsta).2 hno
        rw [← hrv, map_reverse, mem_reverse] at hnt
        exact hms hnt
      rw [hcr hal] at hsta
      obtain ⟨rfl, -⟩ := mk.inj (some.inj (ok.inj hsta))
      refine ⟨hal, ?_⟩
      by_contra hne
      exact hsm ⟨_, hst, Ne.symm hne⟩
  · rintro ⟨hal, hsr⟩
    refine bind_eq_ok.mpr ⟨_, hcr hal, ?_⟩
    refine raiseIf_bind.mpr ⟨?_, ?_⟩
    · rintro ⟨f, hf, hne⟩
      have hlk : assignment.instanceAssignment.lookup start = some f := hf
      rw [hst] at hlk
      exact hne ((some.inj hlk).symm.trans hsr.symm)
    · rw [reverse_reverse]
      rfl

end EmuFlow.StaProjection
