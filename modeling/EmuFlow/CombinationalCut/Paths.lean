import EmuFlow.CombinationalCut.Contract

/-!
# The paths that a contract covers

The combinational paths of the netlist, with the places where they cross FPGAs through delivered
cuts, against the segments of the exact-cut contract.
-/

namespace EmuFlow.CombinationalCut

open Check SortedSet Routing EmuFlow.Partition List EmuIR Option Keyed

section Paths

variable (ir : EmuIR) (assignment : InstanceAssignment) (cuts : List CutNet)

/-- A delivery that a path runs through: the cut net and the FPGA. -/
abbrev Crossing := String × String

/-- How a path goes from a net driven on `f` (a top-level input is on no FPGA) to a pin on `g`:
through the delivery of the net, or on the FPGA. The latest crossing comes first. -/
def Arrives (f : Option String) (net : Net) (g : String) (xs xs' : List Crossing) : Prop :=
  if delivered cuts g net then xs' = (net.id, g) :: xs
  else (f = some g ∨ f = none) ∧ xs' = xs

/-- A path from an architectural launch to a net, with the FPGA where the net is driven. -/
inductive Carries : List Crossing → Option String → Net → Prop
  | state {i f : String} {n : Net} (hstate : isState ir i = true)
      (hat : assignment.lookup i = some f) (hout : n ∈ ir.outgoing i) : Carries [] (some f) n
  | top {n : Net} {e : Endpoint} (hn : n ∈ ir.nets) (he : e ∈ n.drivers) (htop : e.inst = none) :
      Carries [] none n
  | logic {xs xs' : List Crossing} {f : Option String} {g i : String} {n n' : Net}
      (h : Carries xs f n) (hn : n ∈ ir.incoming i) (hlogic : isState ir i = false)
      (hat : assignment.lookup i = some g) (harrives : Arrives cuts f n g xs xs')
      (hout : n' ∈ ir.outgoing i) : Carries xs' (some g) n'

inductive Captured : List Crossing → Endpoint → Prop
  | state {xs xs' : List Crossing} {f : Option String} {g i : String} {n : Net} {e : Endpoint}
      (h : Carries ir assignment cuts xs f n) (he : e ∈ n.sinks) (hi : e.inst = some i)
      (hstate : isState ir i = true) (hat : assignment.lookup i = some g)
      (harrives : Arrives cuts f n g xs xs') : Captured xs' e
  | top {xs : List Crossing} {f : Option String} {n : Net} {e : Endpoint}
      (h : Carries ir assignment cuts xs f n) (he : e ∈ n.sinks) (htop : e.inst = none) :
      Captured xs e

/-- One cut after another: a path from a delivered sink of `p` to the driver of `c` inside the
source FPGA of `c`. -/
def CutChain (p c : String) : Prop :=
  ∃ cut ∈ cuts, cut.net = c ∧ ∃ net ∈ ir.nets, net.id = c ∧ ∃ g, cut.sourceFpgas.head? = some g ∧
    ∃ e ∈ net.drivers, ∃ j, e.inst = some j ∧ Fed ir assignment cuts g (.cut p) j

/-! ## what the contract says of them -/

/-- A path that crosses FPGAs is covered: a launch segment to the first cut, a transfer segment for
each two cuts in a row and a capture segment from the last one, each on its FPGA. -/
structure Covered (contract : SemanticContract) (xs : List Crossing) (e : Endpoint) : Prop where
  first : ∀ x, xs.getLast? = some x → ∃ f, sourceFpga cuts x.1 = some f ∧ contract.LaunchesTo x.1 f
  between : xs.IsChain fun y x => sourceFpga cuts y.1 = some x.2 ∧ contract.Transfers x.1 y.1 x.2
  last : ∀ x, xs.head? = some x → ∃ capture,
    endpointCapture ir assignment x.1 x.2 e = some capture ∧ contract.Captures x.1 x.2 capture

/-- **The paths of an accepted input**: the paths are covered, and each transfer segment
stands for a path. -/
structure Exact (contract : SemanticContract) : Prop where
  complete : ∀ xs e, Captured ir assignment cuts xs e → Covered ir assignment cuts contract xs e
  sound : ∀ s ∈ contract.logicSegments, s.kind = "rx_to_tx" →
    ∃ p c, s.sourceCutNet = some p ∧ s.sinkCutNet = some c ∧ s.fpga = sourceFpga cuts c ∧
      CutChain ir assignment cuts p c

def CapturedOn (net : Net) (g : String) : Prop :=
  (∃ e ∈ net.sinks, ∃ i, e.inst = some i ∧ isState ir i = true ∧ assignment.lookup i = some g) ∨
    ∃ i, Fed ir assignment cuts g (.cut net.id) i ∧ ∃ n ∈ ir.outgoing i, ∃ e ∈ n.sinks, ∃ capture,
      endpointCapture ir assignment net.id g e = some capture

def Observed (c : String) : Prop :=
  ∃ net ∈ ir.nets, Relation.ReflTransGen (CutChain ir assignment cuts) c net.id ∧
    ∃ g, delivered cuts g net = true ∧ CapturedOn ir assignment cuts net g

def TopDriven (net : Net) : Prop := ∃ e ∈ net.drivers, e.inst = none

/-- What a top-driven cut needs to get its launch segment all the same: another launch in the source
cone of its logic driver, or no cut there at all. -/
def ConeLaunches (cut : CutNet) (net : Net) : Prop :=
  ∀ g, cut.sourceFpgas.head? = some g → ConeReads ir assignment cuts g net .launch ∨
    ∀ p, ¬ ConeReads ir assignment cuts g net (.cut p)

def TopLaunchesKept : Prop :=
  ∀ cut ∈ cuts, ∀ net ∈ ir.nets, net.id = cut.net → TopDriven net →
    Observed ir assignment cuts cut.net → ConeLaunches ir assignment cuts cut net

end Paths

section Cones

variable {ir : EmuIR} {assignment : InstanceAssignment} {cuts : List CutNet} {net n : Net}
  {fpga i j : String} {feed : Feed}

theorem delivered_of_driven (hcuts : computeCutNets ir assignment = .ok cuts)
    (hout : n ∈ ir.outgoing i) (hat : assignment.lookup i = some fpga) :
    delivered cuts fpga n = false := by
  rw [Bool.eq_false_iff]
  intro hd
  obtain ⟨cut, hf, hs⟩ := delivered_iff.mp hd
  obtain ⟨net', hnt', hc⟩ := mem_computeCutNets hcuts (mem_of_find hf)
  obtain ⟨hn, e, he, hi⟩ := mem_outgoing.mp hout
  have hsm : net' = n := net_ext hnt' hn (hc.net_eq.symm.trans (key_of_find hf))
  rw [hsm] at hc
  exact ((hc.mem_sink fpga).mp hs).2 ⟨e, he, i, hi, hat⟩

theorem coneReads_of_fed (hcuts : computeCutNets ir assignment = .ok cuts)
    (hf : Fed ir assignment cuts fpga feed j) (hc : InCone ir assignment cuts fpga net j) :
    ConeReads ir assignment cuts fpga net feed := by
  induction hf with
  | cut hat hlogic hn hr => exact .cut hc hlogic hn hr
  | top hat hlogic hn hl he htop => exact .top hc hlogic hn hl he htop
  | state hat hlogic hstate hi hout hn =>
    obtain ⟨-, e, he, hin⟩ := mem_outgoing.mp hout
    exact .state (.up hc hlogic hn (delivered_of_driven hcuts hout hi) he hin hi) hstate
  | step hf hat hlogic hout hn ih =>
    obtain ⟨-, e, he, hin⟩ := mem_outgoing.mp hout
    exact ih (.up hc hlogic hn (delivered_of_driven hcuts hout hf.at_fpga) he hin hf.at_fpga)

theorem Fed.to_driver (ho : ∀ i, InCone ir assignment cuts fpga net i →
      assignment.lookup i = some fpga)
    (hc : InCone ir assignment cuts fpga net j) (hf : Fed ir assignment cuts fpga feed j) :
    ∃ e ∈ net.drivers, ∃ i, e.inst = some i ∧ Fed ir assignment cuts fpga feed i := by
  induction hc with
  | driver he hi => exact ⟨_, he, _, hi, hf⟩
  | up hc hlogic hn hl he hi hat ih =>
    exact ih (.step hf (ho _ hc) hlogic
      (mem_outgoing.mpr ⟨(mem_incoming.mp hn).1, _, he, hi⟩) hn)

theorem coneReads_cut_iff (hcuts : computeCutNets ir assignment = .ok cuts)
    (ho : ∀ i, InCone ir assignment cuts fpga net i →
      assignment.lookup i = some fpga) {p : String} :
    ConeReads ir assignment cuts fpga net (.cut p) ↔
      ∃ e ∈ net.drivers, ∃ i, e.inst = some i ∧ Fed ir assignment cuts fpga (.cut p) i := by
  constructor
  · intro h
    cases h with
    | cut hc hlogic hn hr =>
      exact Fed.to_driver ho hc (.cut (ho _ hc) hlogic hn hr)
  · rintro ⟨e, he, i, hi, hf⟩
    exact coneReads_of_fed hcuts hf (.driver he hi)

end Cones

section Sources

variable {ir : EmuIR} {assignment : InstanceAssignment} {cuts : List CutNet} {policy : String}
  {sources : List CutSources}

theorem analyzeSources_eq_ok (h : analyzeSources ir assignment cuts policy = .ok sources) :
    (∀ cut ∈ cuts, cut.sourceFpgas.length = 1) ∧
      (sortedBy CutNet.net cuts).mapM (cutSources ir assignment cuts) = .ok sources := by
  obtain ⟨⟨⟩, -, h⟩ := bind_eq_ok.mp h
  obtain ⟨⟨⟩, -, h⟩ := bind_eq_ok.mp h
  obtain ⟨⟨⟩, hch, h⟩ := bind_eq_ok.mp h
  refine ⟨fun cut hct => ?_, h⟩
  have hc := forM_eq_ok.mp hch cut hct
  unfold checkCut at hc
  split at hc
  · cases hc
  · obtain ⟨⟨⟩, ho, -⟩ := bind_eq_ok.mp hc
    exact not_not.mp (raiseIf_eq_ok.mp ho)

structure SourcesOk (ir : EmuIR) (assignment : InstanceAssignment) (cuts : List CutNet)
    (sources : List CutSources) : Prop where
  cuts_nodup : (cuts.map CutNet.net).Nodup
  one_source : ∀ cut ∈ cuts, cut.sourceFpgas.length = 1
  nodup : (sources.map CutSources.net).Nodup
  of_cut : ∀ cut ∈ cuts, ∃ s ∈ sources, ∃ net fpga, SourcesOf ir assignment cuts cut s net fpga
  of_sources : ∀ s ∈ sources, ∃ cut ∈ cuts, ∃ net fpga, SourcesOf ir assignment cuts cut s net fpga

theorem sourcesOk (hcuts : computeCutNets ir assignment = .ok cuts)
    (h : analyzeSources ir assignment cuts policy = .ok sources) :
    SourcesOk ir assignment cuts sources := by
  obtain ⟨ho, hm⟩ := analyzeSources_eq_ok h
  have hnd := nodup_computeCutNets hcuts
  refine ⟨hnd, ho, ?_, fun cut hc => ?_, fun s hs => ?_⟩
  · rw [map_of_mapM (k := CutNet.net) (fun cut s hc => by
      obtain ⟨net, fpga, hs⟩ := cutSources_spec hc
      exact hs.sources_net) hm]
    exact ((sortedBy_perm CutNet.net cuts).map CutNet.net).nodup_iff.mpr hnd
  · obtain ⟨s, hs, hc⟩ := mem_mapM_of_mem hm (mem_sortedBy.mpr hc)
    exact ⟨s, hs, cutSources_spec hc⟩
  · obtain ⟨cut, hc, hs⟩ := exists_of_mem_mapM hm hs
    exact ⟨cut, mem_sortedBy.mp hc, cutSources_spec hs⟩

theorem SourcesOk.sourceFpga_eq (hok : SourcesOk ir assignment cuts sources) {cut : CutNet}
    (hc : cut ∈ cuts) : sourceFpga cuts cut.net = cut.sourceFpgas.head? := by
  rw [sourceFpga, find_of_mem hok.cuts_nodup hc]
  rfl

theorem dependsOn_iff (hcuts : computeCutNets ir assignment = .ok cuts)
    (hok : SourcesOk ir assignment cuts sources) {p c : String} :
    DependsOn sources p c ↔ CutChain ir assignment cuts p c := by
  constructor
  · rintro ⟨s, hs, rfl, hp⟩
    obtain ⟨cut, hc, net, fpga, hsp⟩ := hok.of_sources s hs
    have hr := (hsp.mem_predecessors p).mp hp
    exact ⟨cut, hc, hsp.sources_net.symm, net, hsp.net_mem,
      hsp.net_id.trans hsp.sources_net.symm, fpga, hsp.fpga_eq,
      (coneReads_cut_iff hcuts hsp.on_fpga).mp hr⟩
  · rintro ⟨cut, hc, rfl, net, hnt, hid, g, hg, hf⟩
    obtain ⟨s, hs, net', fpga, hsp⟩ := hok.of_cut cut hc
    obtain rfl := net_ext hsp.net_mem hnt (hsp.net_id.trans hid.symm)
    obtain rfl := some.inj (hsp.fpga_eq.symm.trans hg)
    exact ⟨s, hs, hsp.sources_net, (hsp.mem_predecessors p).mpr
      ((coneReads_cut_iff hcuts hsp.on_fpga).mpr hf)⟩

end Sources

/-! ## the segments of a built contract -/

section Built

variable {ir : EmuIR} {assignment : InstanceAssignment} {cuts : List CutNet} {policy : String}
  {depth : Nat} {sources : List CutSources} {contract : SemanticContract} {net : Net} {cut : CutNet}
  {f g p c : String}

structure Built (ir : EmuIR) (assignment : InstanceAssignment) (cuts : List CutNet)
    (sources : List CutSources) (contract : SemanticContract) : Prop where
  ok : SourcesOk ir assignment cuts sources
  segments : contract.logicSegments = logicSegments cuts sources contract.captures
  captures : ∃ found, (sortedBy CutNet.net cuts).mapM (cutCaptures ir assignment cuts) = .ok found ∧
    contract.captures = captureRecords found.flatten
  requirements : contract.captureRequirements = contract.captures.map CaptureRecord.requirement
  nodes : ∃ analysis : CutAnalysis, analysis.sources = sources ∧ contract.cutNodes =
    (sortedBy CutNet.net cuts).map (cutNode ir contract.logicSegments analysis)

theorem built (hcuts : computeCutNets ir assignment = .ok cuts)
    (h : buildStaticExactSemanticContract ir assignment cuts depth policy = .ok contract) :
    ∃ sources, Built ir assignment cuts sources contract := by
  obtain ⟨analysis, ha, h⟩ := bind_eq_ok.mp h
  obtain ⟨found, hf, h⟩ := bind_eq_ok.mp h
  obtain ⟨sources, hs, ha⟩ := bind_eq_ok.mp ha
  obtain ⟨levels, -, ha⟩ := bind_eq_ok.mp ha
  obtain ⟨maximum, -, ha⟩ := bind_eq_ok.mp ha
  rw [← Except.ok.inj ha] at h
  rw [← Except.ok.inj h]
  exact ⟨sources, sourcesOk hcuts hs, rfl, ⟨found, hf, rfl⟩, rfl, _, rfl, rfl⟩

section

variable (hb : Built ir assignment cuts sources contract)
include hb

theorem Built.launchesTo_iff (hc : cut ∈ cuts)
    (hnt : net ∈ ir.nets) (hid : net.id = cut.net) (hf : cut.sourceFpgas.head? = some f) :
    contract.LaunchesTo cut.net f ↔ ConeReads ir assignment cuts f net .launch ∨
      ∀ p, ¬ ConeReads ir assignment cuts f net (.cut p) := by
  obtain ⟨s, hs, net', fpga, hsp⟩ := hb.ok.of_cut cut hc
  obtain rfl := net_ext hsp.net_mem hnt (hsp.net_id.trans hid.symm)
  obtain rfl := some.inj (hsp.fpga_eq.symm.trans hf)
  have hln : (s.localLaunch = true ∨ s.predecessors = []) ↔
      ConeReads ir assignment cuts fpga net' .launch ∨
        ∀ p, ¬ ConeReads ir assignment cuts fpga net' (.cut p) := by
    rw [hsp.localLaunch_iff, eq_nil_iff_forall_not_mem]
    simp only [hsp.mem_predecessors]
  rw [← hln]
  constructor
  · rintro ⟨segment, hsg, hk, hsn, -⟩
    rw [hb.segments] at hsg
    rcases mem_logicSegments hsg with
      ⟨s', hs', hl, id, rfl⟩ | ⟨_, _, _, _, id, rfl⟩ | ⟨_, _, id, rfl⟩
    · have hnt : s'.net = s.net := (some.inj hsn).trans hsp.sources_net.symm
      rwa [inj_on_of_nodup_map hb.ok.nodup hs' hs hnt] at hl
    · cases (by decide : "rx_to_tx" ≠ "launch_to_tx") hk
    · cases (by decide : "rx_to_capture" ≠ "launch_to_tx") hk
  · intro hl
    obtain ⟨id, hid⟩ := exists_launchSegment cuts contract.captures hs hl
    refine ⟨_, hb.segments ▸ hid, rfl, congrArg some hsp.sources_net, ?_⟩
    show sourceFpga cuts s.net = some fpga
    rw [hsp.sources_net, hb.ok.sourceFpga_eq hc, hsp.fpga_eq]

theorem Built.transfer_dependsOn
    {segment : LogicSegment} (h : segment ∈ contract.logicSegments)
      (hk : segment.kind = "rx_to_tx") :
    ∃ p c, segment.sourceCutNet = some p ∧ segment.sinkCutNet = some c ∧
      segment.fpga = sourceFpga cuts c ∧ DependsOn sources p c := by
  rw [hb.segments] at h
  rcases mem_logicSegments h with ⟨_, _, _, id, rfl⟩ | ⟨s, hs, p, hp, id, rfl⟩ | ⟨_, _, id, rfl⟩
  · cases (by decide : "launch_to_tx" ≠ "rx_to_tx") hk
  · exact ⟨p, s.net, rfl, rfl, rfl, s, hs, rfl, hp⟩
  · cases (by decide : "rx_to_capture" ≠ "rx_to_tx") hk

theorem Built.transfers
    (h : DependsOn sources p c) (hg : sourceFpga cuts c = some g) : contract.Transfers p c g := by
  obtain ⟨s, hs, rfl, hp⟩ := h
  obtain ⟨id, hid⟩ := exists_dependencySegment cuts contract.captures hs hp
  exact ⟨_, hb.segments ▸ hid, rfl, rfl, rfl, hg⟩

theorem Built.captured (hnt : net ∈ ir.nets)
    (hrm : delivered cuts g net = true) {e : Endpoint} {capture : Capture}
    (hbr : Branch ir assignment cuts net g e)
    (hcp : endpointCapture ir assignment net.id g e = some capture) :
    contract.Captures net.id g capture := by
  obtain ⟨found, hfd, hrr⟩ := hb.captures
  obtain ⟨cut, hf, hs⟩ := delivered_iff.mp hrm
  obtain ⟨captures, hct, hc⟩ :=
    mem_mapM_of_mem hfd (mem_sortedBy.mpr (mem_of_find hf))
  obtain ⟨net', hnt', hc⟩ := bind_eq_ok.mp hc
  rw [lookupOrRaise_eq_ok, key_of_find hf, findNet_eq_some.mpr ⟨hnt, rfl⟩,
    some.injEq] at hnt'
  subst hnt'
  obtain ⟨onFpgas, hfp, hc⟩ := bind_eq_ok.mp hc
  obtain ⟨onFpga, hm, hfg⟩ := mem_mapM_of_mem hfp (mem_sorted.mpr hs)
  have hin : capture ∈ found.flatten := by
    refine mem_flatten.mpr ⟨captures, hct, ?_⟩
    rw [← Except.ok.inj hc]
    exact mem_flatten.mpr
      ⟨onFpga, hm, (fpgaCaptures_spec hnt hrm hfg).mpr ⟨e, hbr, hcp⟩⟩
  obtain ⟨r, hr, hv⟩ := exists_captureRecord hin
  rw [← hrr] at hr
  obtain ⟨id, hid⟩ := exists_captureSegment cuts sources hr
  have hp := endpointCapture_place hcp
  refine ⟨r, hr, hv, _, hb.segments ▸ hid, rfl, ?_, ?_, rfl⟩
  · exact congrArg some (by rw [hv]; exact hp.1)
  · exact congrArg some (by rw [hv]; exact hp.2)

end

end Built

/-! ## every path is covered -/

section Complete

variable {ir : EmuIR} {assignment : InstanceAssignment} {cuts : List CutNet}
  {sources : List CutSources} {contract : SemanticContract} {net n : Net} {xs xs' : List Crossing}
  {f : Option String} {g i : String} {e : Endpoint}

/-- Where a path is after its crossings: fed by a launch, or by the latest crossing. -/
def Position (ir : EmuIR) (assignment : InstanceAssignment) (cuts : List CutNet) (f : Option String)
    (n : Net) : List Crossing → Prop
  | [] => (f = none ∧ TopDriven n) ∨ ∃ g i, f = some g ∧ assignment.lookup i = some g ∧
      n ∈ ir.outgoing i ∧ (isState ir i = true ∨ Fed ir assignment cuts g .launch i)
  | (c, g) :: _ => f = some g ∧ ∃ i, n ∈ ir.outgoing i ∧ Fed ir assignment cuts g (.cut c) i

def FedBy (ir : EmuIR) (assignment : InstanceAssignment) (cuts : List CutNet) (g i : String) :
    List Crossing → Prop
  | [] => Fed ir assignment cuts g .launch i
  | (c, g') :: _ => g' = g ∧ Fed ir assignment cuts g (.cut c) i

theorem Position.arrives (hp : Position ir assignment cuts f n xs)
    (ha : Arrives cuts f n g xs xs') (hn : n ∈ ir.incoming i)
    (hat : assignment.lookup i = some g) (hlogic : isState ir i = false) :
    FedBy ir assignment cuts g i xs' := by
  unfold Arrives at ha
  split at ha
  · next hr =>
    rw [ha]
    exact ⟨rfl, .cut hat hlogic hn hr⟩
  · next hl =>
    obtain ⟨hf, rfl⟩ := ha
    have hl : delivered cuts g n = false := Bool.not_eq_true _ ▸ hl
    cases xs' with
    | nil =>
      rcases hp with ⟨-, e, he, htop⟩ | ⟨g', i', rfl, hat', hout, hln⟩
      · exact .top hat hlogic hn hl he htop
      · obtain rfl : g' = g := some.inj (hf.resolve_right (some_ne_none g'))
        rcases hln with hstate | hfd
        · exact .state hat hlogic hstate hat' hout hn
        · exact .step hfd hat hlogic hout hn
    | cons x xs =>
      obtain ⟨c, g'⟩ := x
      obtain ⟨rfl, i', hout, hfd⟩ := hp
      obtain rfl : g' = g := some.inj (hf.resolve_right (some_ne_none g'))
      exact ⟨rfl, .step hfd hat hlogic hout hn⟩

/-- A cut at which a path can start: a launch feeds its driver, or a top-level input drives it. -/
def StartsAt (ir : EmuIR) (assignment : InstanceAssignment) (cuts : List CutNet)
    (c : String) : Prop :=
  ∃ cut ∈ cuts, cut.net = c ∧ ∃ net ∈ ir.nets, net.id = c ∧ ∃ f, cut.sourceFpgas.head? = some f ∧
    (TopDriven net ∨ ConeReads ir assignment cuts f net .launch)

/-- The crossings of a path: deliveries, each on the source FPGA of the next cut. -/
structure Tracked (ir : EmuIR) (assignment : InstanceAssignment) (cuts : List CutNet)
    (xs : List Crossing) : Prop where
  first : ∀ x, xs.getLast? = some x → StartsAt ir assignment cuts x.1
  between : xs.IsChain fun y x =>
    sourceFpga cuts y.1 = some x.2 ∧ CutChain ir assignment cuts x.1 y.1
  delivers : ∀ x ∈ xs, ∃ net ∈ ir.nets, net.id = x.1 ∧ delivered cuts x.2 net = true

section

variable (hcuts : computeCutNets ir assignment = .ok cuts)
  (hok : SourcesOk ir assignment cuts sources)
include hcuts hok

theorem source_of_driver {cut : CutNet} (hc : cut ∈ cuts)
    (hid : cut.net = n.id) (hout : n ∈ ir.outgoing i) (hat : assignment.lookup i = some g) :
    cut.sourceFpgas.head? = some g := by
  obtain ⟨net', hnt', his⟩ := mem_computeCutNets hcuts hc
  obtain ⟨hn, e, he, hi⟩ := mem_outgoing.mp hout
  obtain rfl := net_ext hnt' hn (his.net_eq.symm.trans hid)
  obtain ⟨f, hf⟩ := length_eq_one_iff.mp (hok.one_source cut hc)
  have hm := (his.mem_source g).mpr ⟨e, he, i, hi, hat⟩
  rw [hf, mem_singleton] at hm
  rw [hf, hm]
  rfl

theorem Tracked.arrives (hn : n ∈ ir.nets)
    (hps : Position ir assignment cuts f n xs) (ht : Tracked ir assignment cuts xs)
    (har : Arrives cuts f n g xs xs') : Tracked ir assignment cuts xs' := by
  unfold Arrives at har
  split at har
  · next hrm =>
    obtain ⟨cut, hfn, -⟩ := delivered_iff.mp hrm
    have hct := mem_of_find hfn
    have hid := key_of_find hfn
    have hdl : ∀ x ∈ xs', ∃ net ∈ ir.nets, net.id = x.1 ∧ delivered cuts x.2 net = true := by
      rw [har]
      exact forall_mem_cons.mpr ⟨⟨n, hn, rfl, hrm⟩, ht.delivers⟩
    obtain ⟨s, hs, net', fpga, hsp⟩ := hok.of_cut cut hct
    cases xs with
    | nil =>
      refine ⟨fun x hx => ?_, by rw [har]; exact .singleton _, hdl⟩
      rw [har] at hx
      cases hx
      refine ⟨cut, hct, hid, n, hn, rfl, fpga, hsp.fpga_eq, ?_⟩
      rcases hps with ⟨-, htop⟩ | ⟨g', i', -, hat', hout, hln⟩
      · exact Or.inl htop
      · right
        obtain ⟨-, e, he, hi⟩ := mem_outgoing.mp hout
        obtain rfl := some.inj
          (hsp.fpga_eq.symm.trans (source_of_driver hcuts hok hct hid hout hat'))
        rcases hln with hstate | hfd
        · exact .state (.driver he hi) hstate
        · exact coneReads_of_fed hcuts hfd (.driver he hi)
    | cons x xs =>
      obtain ⟨c, g'⟩ := x
      obtain ⟨-, i', hout, hfd⟩ := hps
      obtain ⟨-, e, he, hi⟩ := mem_outgoing.mp hout
      have hsr := source_of_driver hcuts hok hct hid hout hfd.at_fpga
      refine ⟨fun y hy => ht.first y (by rw [har, getLast?_cons_cons] at hy; exact hy), ?_,
        hdl⟩
      rw [har]
      refine isChain_cons_cons.mpr ⟨⟨?_, ?_⟩, ht.between⟩
      · show sourceFpga cuts n.id = some g'
        rw [← hid, hok.sourceFpga_eq hct, hsr]
      · exact ⟨cut, hct, hid, n, hn, rfl, g', hsr, e, he, i', hi, hfd⟩
  · obtain ⟨-, rfl⟩ := har
    exact ht

theorem Carries.tracked (h : Carries ir assignment cuts xs f n) :
    n ∈ ir.nets ∧ Position ir assignment cuts f n xs ∧ Tracked ir assignment cuts xs := by
  have hnl : Tracked ir assignment cuts [] :=
    ⟨fun x hx => (by cases hx), .nil, fun x hx => absurd hx not_mem_nil⟩
  induction h with
  | state hstate hat hout =>
    exact ⟨(mem_outgoing.mp hout).1, Or.inr ⟨_, _, rfl, hat, hout, Or.inl hstate⟩, hnl⟩
  | top hn he htop => exact ⟨hn, Or.inl ⟨rfl, _, he, htop⟩, hnl⟩
  | @logic xs xs' f g i n n' _ hn hlogic hat ha hout ih =>
    obtain ⟨hm, hp, ht⟩ := ih
    refine ⟨(mem_outgoing.mp hout).1, ?_, ht.arrives hcuts hok hm hp ha⟩
    have hf := hp.arrives ha hn hat hlogic
    cases xs' with
    | nil => exact Or.inr ⟨g, i, rfl, hat, hout, Or.inr hf⟩
    | cons x xs =>
      obtain ⟨c, g'⟩ := x
      obtain ⟨rfl, hf⟩ := hf
      exact ⟨rfl, i, hout, hf⟩

theorem Captured.tracked (h : Captured ir assignment cuts xs e) :
    Tracked ir assignment cuts xs ∧ ∀ x, xs.head? = some x →
      ∃ net ∈ ir.nets, net.id = x.1 ∧ delivered cuts x.2 net = true ∧
        CapturedOn ir assignment cuts net x.2 ∧ Branch ir assignment cuts net x.2 e ∧
          ∃ capture, endpointCapture ir assignment net.id x.2 e = some capture := by
  cases h with
  | @state xs₀ _ f g i n _ h he hi hstate hat ha =>
    obtain ⟨hn, hp, ht⟩ := h.tracked hcuts hok
    have htr := ht.arrives hcuts hok hn hp ha
    refine ⟨htr, fun x hx => ?_⟩
    have hc : ∀ c, ∃ capture, endpointCapture ir assignment c g e = some capture := by
      intro c
      rw [endpointCapture, hi]
      exact ⟨_, if_pos ⟨hstate, hat⟩⟩
    unfold Arrives at ha
    split at ha
    · next hr =>
      rw [ha] at hx
      cases hx
      exact ⟨n, hn, rfl, hr, Or.inl ⟨e, he, i, hi, hstate, hat⟩, Or.inl he, hc n.id⟩
    · obtain ⟨hf, rfl⟩ := ha
      cases xs with
      | nil => cases hx
      | cons y ys =>
        obtain ⟨c, g'⟩ := y
        cases hx
        obtain ⟨rfl, j, hout, hfd⟩ := hp
        obtain rfl : g' = g := some.inj (hf.resolve_right (some_ne_none g'))
        obtain ⟨net, hnt, hid, hr⟩ := ht.delivers _ mem_cons_self
        dsimp only at hid hr
        rw [← hid] at hfd
        exact ⟨net, hnt, hid, hr, Or.inr ⟨j, hfd, n, hout, e, he, hc net.id⟩,
          Or.inr ⟨j, hfd, n, hout, he⟩, hc net.id⟩
  | @top _ f n _ h he htop =>
    obtain ⟨hn, hp, ht⟩ := h.tracked hcuts hok
    refine ⟨ht, fun x hx => ?_⟩
    have hc : ∀ c g, ∃ capture, endpointCapture ir assignment c g e = some capture := by
      intro c g
      rw [endpointCapture, htop]
      exact ⟨_, rfl⟩
    cases xs with
    | nil => cases hx
    | cons y ys =>
      obtain ⟨c, g⟩ := y
      cases hx
      obtain ⟨rfl, j, hout, hfd⟩ := hp
      obtain ⟨net, hnt, hid, hr⟩ := ht.delivers _ mem_cons_self
      dsimp only at hid hr
      rw [← hid] at hfd
      exact ⟨net, hnt, hid, hr, Or.inr ⟨j, hfd, n, hout, e, he, hc net.id g⟩,
        Or.inr ⟨j, hfd, n, hout, he⟩, hc net.id g⟩

end

theorem Tracked.chain (ht : Tracked ir assignment cuts xs) {first last : Crossing}
    (hf : xs.getLast? = some first) (hl : xs.head? = some last) :
    Relation.ReflTransGen (CutChain ir assignment cuts) first.1 last.1 := by
  have hbt := ht.between
  clear ht
  induction xs generalizing last with
  | nil => cases hl
  | cons y ys ih =>
    cases hl
    cases ys with
    | nil =>
      cases hf
      exact .refl
    | cons x xs =>
      obtain ⟨⟨-, hc⟩, hr⟩ := isChain_cons_cons.mp hbt
      exact (ih (by rw [← hf, getLast?_cons_cons]) rfl hr).tail hc

theorem Captured.covered (hcuts : computeCutNets ir assignment = .ok cuts)
    (hb : Built ir assignment cuts sources contract) (hkp : TopLaunchesKept ir assignment cuts)
    (h : Captured ir assignment cuts xs e) : Covered ir assignment cuts contract xs e := by
  obtain ⟨ht, hcp⟩ := h.tracked hcuts hb.ok
  refine ⟨fun x hx => ?_, ?_, fun x hx => ?_⟩
  · obtain ⟨cut, hcu, hc, net, hnt, hid, f, hf, hln⟩ := ht.first x hx
    refine ⟨f, by rw [← hc, hb.ok.sourceFpga_eq hcu, hf], ?_⟩
    rw [← hc, hb.launchesTo_iff hcu hnt (hid.trans hc.symm) hf]
    rcases hln with htop | hrd
    · -- the path leads from this cut to a capture
      obtain ⟨last, hls⟩ : ∃ last, xs.head? = some last := by
        cases xs with
        | nil => cases hx
        | cons y ys => exact ⟨y, rfl⟩
      obtain ⟨net', hnt', hid', hrm, hon, -⟩ := hcp last hls
      have hob : Observed ir assignment cuts cut.net := by
        refine ⟨net', hnt', ?_, last.2, hrm, hon⟩
        rw [hid', hc]
        exact ht.chain hx hls
      exact hkp cut hcu net hnt (hid.trans hc.symm) htop hob f hf
    · exact Or.inl hrd
  · exact ht.between.imp fun _ _ ⟨hsr, hch⟩ =>
      ⟨hsr, hb.transfers ((dependsOn_iff hcuts hb.ok).mpr hch) hsr⟩
  · obtain ⟨net, hnt, hid, hrm, -, hbr, capture, hct⟩ := hcp x hx
    rw [← hid]
    exact ⟨capture, hct, hb.captured hnt hrm hbr hct⟩

theorem Carries.through (hcuts : computeCutNets ir assignment = .ok cuts) (hnt : net ∈ ir.nets)
    (h : Carries ir assignment cuts xs f net) (hfd : Fed ir assignment cuts g (.cut net.id) i) :
    ∀ n ∈ ir.outgoing i, Carries ir assignment cuts ((net.id, g) :: xs) (some g) n := by
  generalize hf : Feed.cut net.id = feed at hfd
  induction hfd with
  | @cut j n' hat hlogic hn hr =>
    intro n hout
    obtain rfl := net_ext hnt (mem_incoming.mp hn).1 (Feed.cut.inj hf)
    refine .logic h hn hlogic hat ?_ hout
    rw [Arrives, if_pos hr]
  | top => cases hf
  | state => cases hf
  | @step feed i j n' hi hat hlogic hout hn ih =>
    intro n ho'
    refine .logic (ih hf n' hout) hn hlogic hat ?_ ho'
    rw [Arrives, if_neg (by
      rw [delivered_of_driven hcuts hout hi.at_fpga]
      exact Bool.false_ne_true)]
    exact ⟨Or.inl rfl, rfl⟩

theorem Fed.exists_net {c : String} (h : Fed ir assignment cuts g (.cut c) i) :
    ∃ n ∈ ir.nets, n.id = c := by
  generalize hf : Feed.cut c = feed at h
  induction h with
  | cut _ _ hn _ => exact ⟨_, (mem_incoming.mp hn).1, (Feed.cut.inj hf).symm⟩
  | top => cases hf
  | state => cases hf
  | step _ _ _ _ _ ih => exact ih hf

theorem exists_carries (hcuts : computeCutNets ir assignment = .ok cuts) (hnt : net ∈ ir.nets)
    (htop : TopDriven net) {c : String}
    (hch : Relation.ReflTransGen (CutChain ir assignment cuts) net.id c) :
    ∀ n ∈ ir.nets, n.id = c → ∃ xs f, Carries ir assignment cuts xs f n ∧
      ∀ g, ∃ g₁, ((c, g) :: xs).getLast? = some (net.id, g₁) := by
  induction hch with
  | refl =>
    intro n hn hid
    obtain rfl := net_ext hn hnt hid
    obtain ⟨e, he, htop⟩ := htop
    exact ⟨[], none, .top hnt he htop, fun g => ⟨g, rfl⟩⟩
  | @tail b c _ hbc ih =>
    intro n hn hid
    obtain ⟨cut, hc, rfl, n', hn', hid', g, hg, e, he, j, hj, hf⟩ := hbc
    obtain rfl := net_ext hn hn' (hid.trans hid'.symm)
    -- the cut before it is the net that is delivered to the logic that feeds the driver
    obtain ⟨nb, hnb, rfl⟩ := hf.exists_net
    obtain ⟨xs, f, hcr, hfr⟩ := ih nb hnb rfl
    obtain ⟨g₁, hg₁⟩ := hfr g
    refine ⟨(nb.id, g) :: xs, some g,
      hcr.through hcuts hnb hf n (mem_outgoing.mpr ⟨hn, e, he, hj⟩), fun g' => ⟨g₁, ?_⟩⟩
    rw [getLast?_cons_cons, hg₁]

theorem topLaunchesKept_of_complete (hcuts : computeCutNets ir assignment = .ok cuts)
    (hb : Built ir assignment cuts sources contract)
    (h : ∀ xs e, Captured ir assignment cuts xs e → Covered ir assignment cuts contract xs e) :
    TopLaunchesKept ir assignment cuts := by
  rintro cut hcu net hnt hid htop ⟨n, hn, hch, g, hrm, hon⟩ f hf
  rw [← hid] at hch
  obtain ⟨xs, f', hcr, hfr⟩ := exists_carries hcuts hnt htop hch n hn rfl
  obtain ⟨g₁, hg₁⟩ := hfr g
  obtain ⟨e, hct⟩ : ∃ e, Captured ir assignment cuts ((n.id, g) :: xs) e := by
    rcases hon with ⟨e, he, i, hi, hstate, hat⟩ | ⟨i, hfd, n', hout, e, he, capture, hcp⟩
    · exact ⟨e, .state hcr he hi hstate hat (by rw [Arrives, if_pos hrm])⟩
    · have hnx := hcr.through hcuts hn hfd n' hout
      refine ⟨e, ?_⟩
      unfold endpointCapture at hcp
      split at hcp
      · next htop => exact .top hnx he htop
      · next j hj =>
        split at hcp
        · next hstate =>
          refine .state hnx he hj hstate.1 hstate.2 ?_
          rw [Arrives, if_neg (by
            rw [delivered_of_driven hcuts hout hfd.at_fpga]; exact Bool.false_ne_true)]
          exact ⟨Or.inl rfl, rfl⟩
        · cases hcp
  obtain ⟨f₁, hf₁, hln⟩ := (h _ _ hct).first _ hg₁
  dsimp only at hf₁ hln
  rw [hid, hb.ok.sourceFpga_eq hcu, hf] at hf₁
  cases hf₁
  rw [hid] at hln
  exact (hb.launchesTo_iff hcu hnt hid hf).mp hln

end Complete

/-! ## cycles -/

section Cycles

variable {ir : EmuIR} {assignment : InstanceAssignment} {cuts : List CutNet} {policy : String}
  {depth : Nat} {sources : List CutSources}

theorem validation_ne_cycleError {message : String} {values : List String}
    (h : message ≠ "exact cut dependency graph contains a cycle") :
    EmuFlowError.validation message values ≠ cycleError := by
  intro heq
  exact h (EmuFlowError.validation.inj heq).1

theorem cutSources_ne_cycleError {cut : CutNet} :
    cutSources ir assignment cuts cut ≠ .error cycleError := by
  intro h
  rcases bind_eq_error.mp h with h | ⟨net, -, h⟩
  · unfold lookupOrRaise at h
    split at h <;> cases h
  rcases bind_eq_error.mp h with h | ⟨fpga, -, h⟩
  · unfold lookupOrRaise at h
    split at h <;> cases h
  rcases bind_eq_error.mp h with h | ⟨⟨⟩, -, h⟩
  · exact validation_ne_cycleError (by decide) (raiseIf_eq_error.mp h).2
  rcases bind_eq_error.mp h with h | ⟨feeds, -, h⟩
  · obtain ⟨i, h⟩ := Worklist.of_run_eq_error h
    rcases bind_eq_error.mp h with h | ⟨⟨⟩, -, h⟩
    · exact validation_ne_cycleError (by decide) (raiseIf_eq_error.mp h).2
    · cases h
  · cases h

theorem analyzeSources_ne_cycleError :
    analyzeSources ir assignment cuts policy ≠ .error cycleError := by
  intro h
  rcases bind_eq_error.mp h with h | ⟨⟨⟩, -, h⟩
  · exact absurd (raiseIf_eq_error.mp h).2 (by decide)
  rcases bind_eq_error.mp h with h | ⟨⟨⟩, -, h⟩
  · exact absurd (raiseIf_eq_error.mp h).2 (by decide)
  rcases bind_eq_error.mp h with h | ⟨⟨⟩, -, h⟩
  · obtain ⟨cut, -, h⟩ := of_forM_eq_error h
    unfold checkCut at h
    split at h
    · exact validation_ne_cycleError (by decide) (Except.error.inj h)
    · rcases bind_eq_error.mp h with h | ⟨⟨⟩, -, h⟩
      · exact validation_ne_cycleError (by decide) (raiseIf_eq_error.mp h).2
      · exact validation_ne_cycleError (by decide) (raiseIf_eq_error.mp h).2
  · obtain ⟨cut, -, h⟩ := of_mapM_eq_error h
    exact cutSources_ne_cycleError h

theorem cutCaptures_ne_cycleError {cut : CutNet} :
    cutCaptures ir assignment cuts cut ≠ .error cycleError := by
  intro h
  rcases bind_eq_error.mp h with h | ⟨net, -, h⟩
  · unfold lookupOrRaise at h
    split at h <;> cases h
  rcases bind_eq_error.mp h with h | ⟨found, -, h⟩
  · obtain ⟨fpga, -, h⟩ := of_mapM_eq_error h
    rcases bind_eq_error.mp h with h | ⟨captures, -, h⟩
    · obtain ⟨e, h⟩ := Worklist.of_run_eq_error h
      unfold captureSearch at h
      dsimp only at h
      split at h
      · exact absurd (Except.error.inj h) (by decide)
      · split at h <;> cases h
    · cases h
  · cases h

theorem cutLevels_eq_cycleError_iff (hcuts : computeCutNets ir assignment = .ok cuts)
    (hok : SourcesOk ir assignment cuts sources) : cutLevels ir sources = .error cycleError ↔
      ∃ c, Relation.TransGen (CutChain ir assignment cuts) c c := by
  obtain ⟨order, ho⟩ := exists_dependencyOrder sources
  have hr : DependsOn sources = CutChain ir assignment cuts := by
    funext p c
    exact propext (dependsOn_iff hcuts hok)
  have hst : ∀ s ∈ sources, s.predecessors.Nodup := by
    intro s hs
    obtain ⟨cut, -, net, fpga, hsp⟩ := hok.of_sources s hs
    rw [hsp.predecessors_sorted]
    exact nodup_sortedSet _
  have hk : ∀ s ∈ sources, ∀ p ∈ s.predecessors, p ∈ sources.map CutSources.net := by
    intro s hs p hp
    obtain ⟨cut, -, net, fpga, hsp⟩ := hok.of_sources s hs
    cases (hsp.mem_predecessors p).mp hp with
    | cut _ _ _ hrm =>
      obtain ⟨cut', hf, -⟩ := delivered_iff.mp hrm
      obtain ⟨s', hs', _, _, hsp'⟩ := hok.of_cut cut' (mem_of_find hf)
      rw [← key_of_find hf, ← hsp'.sources_net]
      exact mem_map_of_mem hs'
  obtain ⟨-, -, -, ha⟩ := dependencyOrder_spec hok.nodup hst hk ho
  rw [hr] at ha
  unfold cutLevels
  rw [bind_eq_error]
  constructor
  · rintro (h | ⟨order', h', h⟩)
    · rw [ho] at h
      cases h
    · rw [ho] at h'
      cases h'
      rcases bind_eq_error.mp h with h | ⟨⟨⟩, -, h⟩
      · exact not_forall_not.mp fun hno => (raiseIf_eq_error.mp h).1 (ha.mpr hno)
      · cases h
  · rintro ⟨c, hc⟩
    refine Or.inr ⟨order, ho, bind_eq_error.mpr (Or.inl (raiseIf_eq_error.mpr ⟨?_, rfl⟩))⟩
    exact fun hl => ha.mp hl c hc

/-- **The builder raises the error on a cycle exactly when a chain of cuts is one**, for an input
that has passed the checks before the order. -/
theorem buildStaticExactSemanticContract_eq_cycleError_iff
    (hcuts : computeCutNets ir assignment = .ok cuts) :
    buildStaticExactSemanticContract ir assignment cuts depth policy = .error cycleError ↔
      (∃ sources, analyzeSources ir assignment cuts policy = .ok sources) ∧
        ∃ c, Relation.TransGen (CutChain ir assignment cuts) c c := by
  constructor
  · intro h
    rcases bind_eq_error.mp h with h | ⟨analysis, -, h⟩
    · rcases bind_eq_error.mp h with h | ⟨sources, hs, h⟩
      · exact absurd h analyzeSources_ne_cycleError
      · refine ⟨⟨sources, hs⟩, ?_⟩
        rcases bind_eq_error.mp h with h | ⟨levels, -, h⟩
        · exact (cutLevels_eq_cycleError_iff hcuts (sourcesOk hcuts hs)).mp h
        · rcases bind_eq_error.mp h with h | ⟨maximum, -, h⟩
          · rcases bind_eq_error.mp h with h | ⟨⟨⟩, -, h⟩
            · exact absurd (raiseIf_eq_error.mp h).2 (validation_ne_cycleError (by decide))
            · cases h
          · cases h
    · rcases bind_eq_error.mp h with h | ⟨found, -, h⟩
      · obtain ⟨cut, -, h⟩ := of_mapM_eq_error h
        exact absurd h cutCaptures_ne_cycleError
      · cases h
  · rintro ⟨⟨sources, hs⟩, hc⟩
    refine bind_eq_error.mpr (Or.inl (bind_eq_error.mpr (Or.inr ⟨sources, hs, ?_⟩)))
    exact bind_eq_error.mpr
      (Or.inl ((cutLevels_eq_cycleError_iff hcuts (sourcesOk hcuts hs)).mpr hc))

end Cycles

/-- **Every path that crosses FPGAs is covered exactly when no cut loses a top-level launch; the
transfer segments always stand for paths, and a cycle of cuts is always found.** -/
theorem buildStaticExactSemanticContract_paths {ir : EmuIR} {assignment : InstanceAssignment}
    {cuts : List CutNet} {policy : String} {depth : Nat}
    (hcuts : computeCutNets ir assignment = .ok cuts) :
    (buildStaticExactSemanticContract ir assignment cuts depth policy = .error cycleError ↔
      (∃ sources, analyzeSources ir assignment cuts policy = .ok sources) ∧
        ∃ c, Relation.TransGen (CutChain ir assignment cuts) c c) ∧
    ∀ contract, buildStaticExactSemanticContract ir assignment cuts depth policy = .ok contract →
      (Exact ir assignment cuts contract ↔ TopLaunchesKept ir assignment cuts) := by
  refine ⟨buildStaticExactSemanticContract_eq_cycleError_iff hcuts, fun contract hbuild => ?_⟩
  obtain ⟨sources, hb⟩ := built hcuts hbuild
  constructor
  · intro hexact
    exact topLaunchesKept_of_complete hcuts hb hexact.complete
  · intro hkept
    refine ⟨fun xs e h => h.covered hcuts hb hkept, fun s hs hkind => ?_⟩
    obtain ⟨p, c, hp, hc, hf, hdep⟩ := hb.transfer_dependsOn hs hkind
    exact ⟨p, c, hp, hc, hf, (dependsOn_iff hcuts hb.ok).mp hdep⟩

/-! ## two designs -/

/-- A register on `g` feeds a lookup table on `f`, which feeds a register on `g` through net `c`. -/
def handoffNets (otherDrivers : List Endpoint) : List Net :=
  [ { id := "p", cutClass := .registerOutput, drivers := [⟨some "a", "Q", 0⟩]
      sinks := [⟨some "d", "I0", 0⟩] },
    { id := "c", cutClass := .registerInput
      drivers := ⟨some "d", "O", 0⟩ :: otherDrivers, sinks := [⟨some "b", "D", 0⟩] } ]

def handoffInstances : List Instance :=
  [ { id := "a", type := "FDRE", resources := { ff := 1 } },
    { id := "b", type := "FDRE", resources := { ff := 1 } },
    { id := "d", type := "LUT1", resources := { lut := 1 } } ]

def handoffIr : EmuIR where
  ports := []
  instances := handoffInstances
  nets := handoffNets []
  instance_ids_nodup := by decide
  net_ids_nodup := by decide
  endpoints_known := by decide

/-- The port `x` drives the net `c` too. -/
def sharedIr : EmuIR where
  ports := ["x"]
  instances := handoffInstances
  nets := handoffNets [⟨none, "x", 0⟩]
  instance_ids_nodup := by decide
  net_ids_nodup := by decide
  endpoints_known := by decide

def handoffAssignment : InstanceAssignment := [("a", "g"), ("b", "g"), ("d", "f")]

def handoffCuts (ir : EmuIR) : List CutNet :=
  ((computeCutNets ir handoffAssignment).toOption).getD []

theorem handoff_paths : ∃ contract,
    buildStaticExactSemanticContract handoffIr handoffAssignment (handoffCuts handoffIr) 0
      "assignment-derived-acyclic-v2" = .ok contract ∧
      Exact handoffIr handoffAssignment (handoffCuts handoffIr) contract := by
  have hcuts : computeCutNets handoffIr handoffAssignment = .ok (handoffCuts handoffIr) := by
    decide +kernel
  obtain ⟨contract, hbuild⟩ := exists_of_isOk (x := buildStaticExactSemanticContract handoffIr
    handoffAssignment (handoffCuts handoffIr) 0 "assignment-derived-acyclic-v2") (by decide +kernel)
  refine ⟨contract, hbuild, ((buildStaticExactSemanticContract_paths hcuts).2
    contract hbuild).mpr ?_⟩
  rintro cut - net hnet - htop
  exact absurd htop
    ((by unfold TopDriven; decide : ∀ net ∈ handoffIr.nets, ¬ TopDriven net) net hnet)

/-- The path from the port through the delivery of `c` has no launch segment. -/
theorem shared_launch_missing : ∃ contract,
    buildStaticExactSemanticContract sharedIr handoffAssignment (handoffCuts sharedIr) 0
      "assignment-derived-acyclic-v2" = .ok contract ∧
      ¬ Exact sharedIr handoffAssignment (handoffCuts sharedIr) contract := by
  obtain ⟨contract, hbuild⟩ := exists_of_isOk (x := buildStaticExactSemanticContract sharedIr
    handoffAssignment (handoffCuts sharedIr) 0 "assignment-derived-acyclic-v2") (by decide +kernel)
  have hsegments : (buildStaticExactSemanticContract sharedIr handoffAssignment
      (handoffCuts sharedIr) 0 "assignment-derived-acyclic-v2").toOption.map (fun contract =>
        contract.logicSegments.any fun s => s.kind == "launch_to_tx" && s.sinkCutNet == some "c") =
      some false := by
    decide +kernel
  refine ⟨contract, hbuild, fun hexact => ?_⟩
  rw [hbuild] at hsegments
  have hcarries : Carries sharedIr handoffAssignment (handoffCuts sharedIr) [] none
      (handoffNets [⟨none, "x", 0⟩])[1] :=
    .top (e := ⟨none, "x", 0⟩) (by decide) (by decide) rfl
  have hcaptured : Captured sharedIr handoffAssignment (handoffCuts sharedIr) [("c", "g")]
      ⟨some "b", "D", 0⟩ :=
    .state hcarries (i := "b") (g := "g") (by decide) rfl (by decide) (by decide)
      (by rw [Arrives, if_pos (by decide +kernel)]; rfl)
  obtain ⟨f, -, s, hs, hkind, hsink, -⟩ := (hexact.complete _ _ hcaptured).first _ rfl
  have hany : (contract.logicSegments.any fun s =>
      s.kind == "launch_to_tx" && s.sinkCutNet == some "c") = true :=
    any_eq_true.mpr ⟨s, hs, by simp [hkind, hsink]⟩
  have hnone : (contract.logicSegments.any fun s =>
      s.kind == "launch_to_tx" && s.sinkCutNet == some "c") = false := some.inj hsegments
  rw [hany] at hnone
  cases hnone

end EmuFlow.CombinationalCut
