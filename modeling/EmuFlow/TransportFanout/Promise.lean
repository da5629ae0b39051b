import EmuFlow.TransportFanout.Sound

/-!
# What fanout buffering promises

A run that adds all its trees keeps the promise in full. A run that raises keeps it when it does so
at its first candidate, before a net is rewired; at a later one it leaves nets that end at buffers
which are in no value.
-/

namespace EmuFlow.TransportFanout

open Check SortedSet List

variable {ir : TransportIR} {maxFanout candidate : ℕ} {nets : List Net} {entry : Net × ℕ}

/-! ## the promise -/

structure KeepsEndpoints (ir : TransportIR) (net net' : Net) : Prop where
  id : net'.id = net.id
  cutClass : net'.cutClass = net.cutClass
  drivers : net'.drivers = net.drivers
  reached : ∀ endpoint ∈ net.sinks, Reaches ir net' endpoint

structure CountsTrees (ir value : TransportIR) (maxFanout : ℕ) (report : Report) : Prop where
  bufferedNets : report.summary.bufferedNets = (ir.nets.filter (isCandidate maxFanout)).length
  cells : value.instances.length = ir.instances.length + report.summary.bufferCells
  nets : value.nets.length = ir.nets.length + report.summary.addedNets
  original : report.summary.maximumOriginalFanout =
    maxOrZero ((ir.nets.filter (isCandidate maxFanout)).map fun net => net.sinks.length)
  result : report.summary.maximumResultFanout =
    maxOrZero ((value.nets.filter fun net => net.cutClass ≠ .clock && net.cutClass ≠ .reset).map
      fun net => net.sinks.length)
  records : ∀ record ∈ report.nets, ∃ net net', ir.nets[record.netIndex]? = some net ∧
    value.nets[record.netIndex]? = some net' ∧ record.net = net.id ∧
    record.originalFanout = net.sinks.length ∧ record.rootFanout = net'.sinks.length ∧
    record.levels = record.levelBufferCounts.length ∧
    record.bufferCells = record.levelBufferCounts.sum ∧
    record.bufferCells = ((value.nets.drop ir.nets.length).filter
      fun added => added.owner = some record.net).length

structure Buffered (ir value : TransportIR) (maxFanout : ℕ) (report : Report) : Prop where
  bounded : ∀ net ∈ value.nets, net.buffered = true → net.sinks.length ≤ maxFanout
  /-- No sink is lost or doubled; each added cell has its one input. -/
  endpoints : ∃ cells, value.instances = ir.instances ++ cells ∧
    (∀ cell ∈ cells, IdentityLut cell) ∧
    (value.nets.flatMap Net.sinks).Perm
      (ir.nets.flatMap Net.sinks ++ cells.map fun cell => inputPin cell.id)
  reached : Forall₂ (KeepsEndpoints value) ir.nets (value.nets.take ir.nets.length)
  ids : (value.instances.map Instance.id).Nodup ∧ (value.nets.map Net.id).Nodup
  valid : validate value = .ok ()
  counts : CountsTrees ir value maxFanout report
  /-- A second run changes nothing. -/
  stable : (bufferTransportHighFanoutNets value maxFanout).value = value ∧
    ∃ again, (bufferTransportHighFanoutNets value maxFanout).result = .ok again ∧ again.nets = []

/-- The run raises before it changes the value, or it returns what it promises. -/
def KeepsPromise (ir : TransportIR) (maxFanout : ℕ) : Prop :=
  let outcome := bufferTransportHighFanoutNets ir maxFanout
  (outcome.value = ir ∧ ∃ e, outcome.result = .error e) ∨
    ∃ report, outcome.result = .ok report ∧ Buffered ir outcome.value maxFanout report

theorem not_candidate_of_bounded
    (h : ∀ net ∈ nets, net.buffered = true → net.sinks.length ≤ maxFanout) :
    ∀ net ∈ nets, isCandidate maxFanout net = false := by
  intro net hn
  rw [isCandidate]
  by_cases hb : net.buffered = true
  · have hle := h net hn hb
    simp [not_lt.mpr hle]
  · simp [hb]

theorem run_of_bounded (hmax : 2 ≤ maxFanout) (hvalid : validate ir = .ok ())
    (h : ∀ net ∈ ir.nets, net.buffered = true → net.sinks.length ≤ maxFanout) :
    (bufferTransportHighFanoutNets ir maxFanout).value = ir ∧
      ∃ again, (bufferTransportHighFanoutNets ir maxFanout).result = .ok again ∧
        again.nets = [] := by
  have hn : candidates maxFanout ir.nets = [] := by
    rw [candidates, filter_eq_nil_iff]
    intro entry he
    rw [not_candidate_of_bounded h entry.1 (fst_mem_of_mem_zipIdx he)]
    simp
  have hs : { ir with instances := ir.instances ++ [], nets := ir.nets ++ [] } = ir := by
    rw [append_nil, append_nil]
  rw [bufferTransportHighFanoutNets, if_neg (by omega), hn]
  refine ⟨hs, ?_⟩
  simp only [bufferCandidates]
  rw [hs, hvalid]
  exact ⟨_, rfl, rfl⟩

/-! ## the nets after the loop -/

theorem bounded_rewire (hmax : 2 ≤ maxFanout) : ∀ (nets : List Net) (candidate : ℕ),
    ∀ net ∈ rewire maxFanout candidate nets, net.buffered = true → net.sinks.length ≤ maxFanout
  | [], _ => fun _ h => absurd h not_mem_nil
  | net :: nets, candidate => by
    rw [rewire]
    split_ifs with hn
    · rw [forall_mem_cons]
      refine ⟨fun _ => ?_, bounded_rewire hmax nets _⟩
      exact length_root_le hmax (le_of_eq length_sortedBy)
    · rw [forall_mem_cons]
      refine ⟨fun hb => ?_, bounded_rewire hmax nets _⟩
      rw [isCandidate, hb, Bool.and_true, decide_eq_true_eq] at hn
      exact not_lt.mp hn

def Planted (value : TransportIR) (maxFanout : ℕ) (entry : Net × ℕ) : Prop :=
  (∀ cell ∈ cellsOf maxFanout entry, cell ∈ value.instances) ∧
    ∀ net ∈ netsOf maxFanout entry, net ∈ value.nets

theorem keeps_rewire {value : TransportIR} (hp : 0 < maxFanout) :
    ∀ (nets : List Net) (candidate : ℕ),
    (∀ entry ∈ forest maxFanout candidate nets, Planted value maxFanout entry) →
    Forall₂ (KeepsEndpoints value) nets (rewire maxFanout candidate nets)
  | [], _, _ => .nil
  | net :: nets, candidate, h => by
    rw [forest_cons] at h
    rw [rewire]
    split_ifs at h ⊢ with hnt
    · obtain ⟨⟨hc, hn⟩, hr⟩ := forall_mem_cons.mp h
      refine .cons ⟨rfl, rfl, rfl, fun p he => ?_⟩ (keeps_rewire hp nets _ hr)
      refine @reaches_of_plan value maxFanout candidate _ net.id hp net.sinks.length 0
        (sortedBy endpointKey net.sinks) rfl (fun buffer hb => ?_) p
        (mem_sortedBy.mpr he)
      exact ⟨hc _ (mem_map_of_mem hb), hn _ (mem_map_of_mem hb)⟩
    · exact .cons ⟨rfl, rfl, rfl, fun _ he => .direct he⟩ (keeps_rewire hp nets _ h)

theorem mem_recordsFrom {record : Record} : ∀ {nets : List Net} {candidate offset : ℕ},
    record ∈ recordsFrom maxFanout candidate offset nets →
    ∃ index net number, nets[index]? = some net ∧
      (rewire maxFanout candidate nets)[index]? = some (net.rewired maxFanout number) ∧
      (net, number) ∈ forest maxFanout candidate nets ∧
      record = recordOf maxFanout number net (offset + index)
  | [], _, _, h => absurd h not_mem_nil
  | first :: nets, candidate, offset, h => by
    rw [recordsFrom] at h
    rw [forest_cons, rewire]
    split_ifs at h ⊢ with hf
    · rcases mem_cons.mp h with rfl | h
      · exact ⟨0, first, candidate, rfl, rfl, mem_cons_self, rfl⟩
      · obtain ⟨index, net, number, hn, hn', he, rfl⟩ := mem_recordsFrom h
        exact ⟨index + 1, net, number, hn, hn', mem_cons_of_mem _ he,
          by rw [Nat.add_right_comm]; rfl⟩
    · obtain ⟨index, net, number, hn, hn', he, rfl⟩ := mem_recordsFrom h
      exact ⟨index + 1, net, number, hn, hn', he, by rw [Nat.add_right_comm]; rfl⟩

theorem length_recordsFrom : ∀ (nets : List Net) (candidate offset : ℕ),
    (recordsFrom maxFanout candidate offset nets).map Record.originalFanout =
      (nets.filter (isCandidate maxFanout)).map fun net => net.sinks.length
  | [], _, _ => rfl
  | net :: nets, candidate, offset => by
    rw [recordsFrom, filter_cons]
    split_ifs with hn
    · rw [map_cons, length_recordsFrom nets, map_cons]
      rfl
    · exact length_recordsFrom nets _ _

theorem filter_netsOf : ∀ {l : List (Net × ℕ)}, (l.map fun entry => entry.1.id).Nodup →
    entry ∈ l → (l.flatMap (netsOf maxFanout)).filter (fun added => added.owner = some entry.1.id) =
      netsOf maxFanout entry
  | [], _, h => absurd h not_mem_nil
  | first :: l, hnd, h => by
    have ho : ∀ (e : Net × ℕ), ∀ added ∈ netsOf maxFanout e, added.owner = some e.1.id := by
      intro e added ha
      obtain ⟨_, -, rfl⟩ := mem_map.mp ha
      rfl
    rw [map_cons, nodup_cons] at hnd
    rw [flatMap_cons, filter_append]
    rcases mem_cons.mp h with rfl | h
    · have how : (netsOf maxFanout entry).filter (fun added => added.owner = some entry.1.id) =
          netsOf maxFanout entry :=
        filter_eq_self.mpr fun added ha => decide_eq_true (ho entry added ha)
      have hot : (l.flatMap (netsOf maxFanout)).filter
          (fun added => added.owner = some entry.1.id) = [] := by
        refine filter_eq_nil_iff.mpr fun added ha hs => ?_
        obtain ⟨other, hot, ha⟩ := mem_flatMap.mp ha
        have hid := (ho other added ha).symm.trans (of_decide_eq_true hs)
        exact hnd.1 (mem_map.mpr ⟨other, hot, Option.some.inj hid⟩)
      rw [how, hot, append_nil]
    · have hf : (netsOf maxFanout first).filter
          (fun added => added.owner = some entry.1.id) = [] := by
        refine filter_eq_nil_iff.mpr fun added ha hs => ?_
        have hid := (ho first added ha).symm.trans (of_decide_eq_true hs)
        exact hnd.1 (Option.some.inj hid ▸ mem_map.mpr ⟨entry, h, rfl⟩)
      rw [hf, nil_append]
      exact filter_netsOf hnd.2 h

/-! ## the runs -/

theorem outcome_of_clear (hmax : 2 ≤ maxFanout)
    (hclear : ∀ entry ∈ forest maxFanout 0 ir.nets, Clear maxFanout (startGrowth ir) entry) :
    ∃ progress : Progress,
      progress.growth.addedInstances = (forest maxFanout 0 ir.nets).flatMap (cellsOf maxFanout) ∧
      progress.growth.addedNets = (forest maxFanout 0 ir.nets).flatMap (netsOf maxFanout) ∧
      progress.records = recordsFrom maxFanout 0 0 ir.nets ∧
      bufferTransportHighFanoutNets ir maxFanout =
        { value := after ir maxFanout
          result := do
            validate (after ir maxFanout)
            return makeReport maxFanout progress (after ir maxFanout).nets } := by
  obtain ⟨hc, hn⟩ := @foldl_plant maxFanout (forest maxFanout 0 ir.nets) (startGrowth ir)
  refine ⟨{ nets := rewire maxFanout 0 ir.nets
            growth := (forest maxFanout 0 ir.nets).foldl (Growth.plant maxFanout) (startGrowth ir)
            records := recordsFrom maxFanout 0 0 ir.nets }, hc, hn, rfl, ?_⟩
  have hl := bufferCandidates_eq (show 0 < maxFanout by omega) ir.nets [] 0 (startGrowth ir) []
    hclear
  have hr : bufferCandidates maxFanout 0 (candidates maxFanout ir.nets)
      { nets := ir.nets, growth := startGrowth ir } = _ := hl
  rw [bufferTransportHighFanoutNets, if_neg (by omega)]
  simp only [startGrowth] at hr hc hn
  rw [hr]
  simp only [nil_append, hc, hn]
  rfl

theorem planted_after (h : entry ∈ forest maxFanout 0 ir.nets) :
    Planted (after ir maxFanout) maxFanout entry :=
  ⟨fun _ hc => mem_append_right _ (mem_flatMap.mpr ⟨entry, h, hc⟩),
    fun _ hn => mem_append_right _ (mem_flatMap.mpr ⟨entry, h, hn⟩)⟩

section

variable (hmax : 2 ≤ maxFanout) (hvalid : Valid ir)
  (hclear : ∀ entry ∈ forest maxFanout 0 ir.nets, Clear maxFanout (startGrowth ir) entry)
include hmax hvalid hclear

theorem valid_after : Valid (after ir maxFanout) := by
  obtain ⟨hcl, hnt⟩ := nodup_after hvalid hclear
  have hgr : ∀ endpoint, Known ir endpoint → Known (after ir maxFanout) endpoint := by
    rintro endpoint ⟨how, hpt⟩
    refine ⟨?_, hpt⟩
    unfold Endpoint.known at how ⊢
    cases his : endpoint.inst with
    | none =>
      rw [his] at how
      exact how
    | some id =>
      rw [his] at how
      show id ∈ (ir.instances ++ _).map Instance.id
      rw [map_append]
      exact mem_append_left _ how
  have hce : ∀ entry ∈ forest maxFanout 0 ir.nets, ∀ cell ∈ cellsOf maxFanout entry,
      Known (after ir maxFanout) (inputPin cell.id) ∧
        Known (after ir maxFanout) (outputPin cell.id) := by
    intro entry hen cell hin
    have hmm : cell.id ∈ (after ir maxFanout).instances.map Instance.id :=
      mem_map_of_mem ((planted_after hen).1 cell hin)
    exact ⟨⟨hmm, show "A" ≠ "" by decide⟩, ⟨hmm, show "Y" ≠ "" by decide⟩⟩
  refine ⟨hvalid.ports, ⟨fun id hid => ?_, hcl⟩, ⟨fun id hid => ?_, hnt⟩, ?_, ?_⟩
  · rw [after, map_append, ids_cellsOf] at hid
    rcases List.mem_append.mp hid with hid | hid
    · exact hvalid.instances.1 id hid
    · obtain ⟨key, -, rfl⟩ := mem_map.mp hid
      simp [cellId]
  · rw [after, map_append, ids_netsOf, ids_rewire] at hid
    rcases List.mem_append.mp hid with hid | hid
    · exact hvalid.nets.1 id hid
    · obtain ⟨key, -, rfl⟩ := mem_map.mp hid
      simp [outputNetId]
  · intro inst his
    rcases List.mem_append.mp his with his | his
    · exact hvalid.types inst his
    · obtain ⟨entry, -, his⟩ := mem_flatMap.mp his
      obtain ⟨_, -, rfl⟩ := mem_map.mp his
      show "$lut" ≠ ""
      decide
  · intro net hne endpoint hed
    rcases List.mem_append.mp hed with hdr | hsn
    · rcases List.mem_append.mp hne with hne | hne
      · -- a rewired net has the drivers of its original
        have hkp := keeps_rewire (show 0 < maxFanout by omega) ir.nets 0 fun entry hen =>
          planted_after hen
        obtain ⟨i, hi⟩ := mem_iff_getElem?.mp hne
        obtain ⟨old, hol⟩ : ∃ old, ir.nets[i]? = some old := by
          have hlt := (List.getElem?_eq_some_iff.mp hi).1
          rw [length_rewire] at hlt
          exact ⟨_, List.getElem?_eq_getElem hlt⟩
        have hpr := (forall₂_iff_get.mp hkp).2 i
          (List.getElem?_eq_some_iff.mp hol).1 (List.getElem?_eq_some_iff.mp hi).1
        rw [get_eq_getElem, get_eq_getElem, (List.getElem?_eq_some_iff.mp hol).2,
          (List.getElem?_eq_some_iff.mp hi).2] at hpr
        rw [hpr.drivers] at hdr
        exact hgr _ (hvalid.endpoints old (mem_of_getElem? hol) endpoint
          (mem_append_left _ hdr))
      · obtain ⟨entry, hen, hne⟩ := mem_flatMap.mp hne
        obtain ⟨buffer, hbf, rfl⟩ := mem_map.mp hne
        rw [mem_singleton.mp hdr]
        exact (hce entry hen _ (mem_map_of_mem hbf)).2
    · have hmm : endpoint ∈ (after ir maxFanout).nets.flatMap Net.sinks :=
        mem_flatMap.mpr ⟨net, hne, hsn⟩
      rw [after, flatMap_append,
        (forest_sinks (show 0 < maxFanout by omega) ir.nets 0).mem_iff] at hmm
      rcases List.mem_append.mp hmm with hmm | hmm
      · obtain ⟨old, hol, hmm⟩ := mem_flatMap.mp hmm
        exact hgr _ (hvalid.endpoints old hol endpoint (mem_append_right _ hmm))
      · obtain ⟨cell, hin, rfl⟩ := mem_map.mp hmm
        obtain ⟨entry, hen, hin⟩ := mem_flatMap.mp hin
        exact (hce entry hen cell hin).1

/-- **All trees added**: the promise in full. -/
theorem kept_after : KeepsPromise ir maxFanout := by
  obtain ⟨progress, hcs, hnt, hrc, hot⟩ := outcome_of_clear hmax hclear
  have hps : 0 < maxFanout := by omega
  have hvl : validate (after ir maxFanout) = .ok () :=
    validate_iff.mpr (valid_after hmax hvalid hclear)
  have hbn : ∀ net ∈ (after ir maxFanout).nets, net.buffered = true →
      net.sinks.length ≤ maxFanout := by
    intro net hne
    rcases List.mem_append.mp hne with hne | hne
    · exact bounded_rewire hmax ir.nets 0 net hne
    · obtain ⟨entry, -, hne⟩ := mem_flatMap.mp hne
      obtain ⟨buffer, hbf, rfl⟩ := mem_map.mp hne
      exact fun _ => length_sinks_le hbf
  refine .inr ⟨makeReport maxFanout progress (after ir maxFanout).nets, ?_, ?_⟩
  · rw [hot, hvl]
    rfl
  rw [hot]
  refine ⟨hbn, ⟨(forest maxFanout 0 ir.nets).flatMap (cellsOf maxFanout), rfl, ?_, ?_⟩, ?_,
    nodup_after hvalid hclear, hvl, ⟨?_, ?_, ?_, ?_, rfl, ?_⟩,
    run_of_bounded hmax hvl hbn⟩
  · intro cell hcl
    obtain ⟨entry, -, hcl⟩ := mem_flatMap.mp hcl
    obtain ⟨_, -, rfl⟩ := mem_map.mp hcl
    exact identityLut_buffer _ _ _
  · rw [after, flatMap_append]
    exact forest_sinks hps ir.nets 0
  · rw [after, take_left' (length_rewire _ _)]
    exact keeps_rewire hps ir.nets 0 fun entry hen => planted_after hen
  · have hln := congrArg List.length (@length_recordsFrom maxFanout ir.nets 0 0)
    rw [length_map, length_map] at hln
    rw [makeReport, hrc, hln]
  · rw [makeReport, hcs, after, length_append]
  · rw [makeReport, hnt, after, length_append, length_rewire]
  · rw [makeReport, hrc, length_recordsFrom]
  · intro r hrr
    rw [makeReport, hrc] at hrr
    obtain ⟨index, net, number, hne, hne', hen, rfl⟩ := mem_recordsFrom hrr
    have hin : 0 + index = index := Nat.zero_add index
    refine ⟨net, net.rewired maxFanout number, ?_, ?_, rfl, rfl, rfl, rfl, rfl, ?_⟩
    · show ir.nets[0 + index]? = some net
      rw [hin, hne]
    · show (rewire maxFanout 0 ir.nets ++ _)[0 + index]? = _
      rw [hin, List.getElem?_append_left (List.getElem?_eq_some_iff.mp hne').1, hne']
    · have hid : ((forest maxFanout 0 ir.nets).map fun entry => entry.1.id).Nodup := by
        have hsb : ((ir.nets.filter (isCandidate maxFanout)).map Net.id).Nodup :=
          hvalid.nets.2.sublist (filter_sublist.map Net.id)
        rwa [← zipIdx_map_fst 0 (ir.nets.filter (isCandidate maxFanout)), map_map] at hsb
      have hfl := @filter_netsOf maxFanout _ _ hid hen
      have hdr : (after ir maxFanout).nets.drop ir.nets.length =
          (forest maxFanout 0 ir.nets).flatMap (netsOf maxFanout) := by
        rw [after, drop_left' (length_rewire _ _)]
      rw [hdr]
      refine sum_widths.trans ?_
      rw [show (recordOf maxFanout number net (0 + index)).net = net.id from rfl, hfl, netsOf,
        length_map]
      rfl

end

/-- **A collision after the first candidate**: the run raises, and the first net is rewired. -/
theorem late_collision (hmax : 2 ≤ maxFanout)
    (hlt : ∃ entry ∈ forest maxFanout 0 ir.nets, ¬ Clear maxFanout (startGrowth ir) entry)
    (hf : ∀ entry ∈ (forest maxFanout 0 ir.nets).head?,
      Clear maxFanout (startGrowth ir) entry) :
    (∃ owner, (bufferTransportHighFanoutNets ir maxFanout).result = .error (collision owner)) ∧
      (bufferTransportHighFanoutNets ir maxFanout).value ≠ ir := by
  have hp : 0 < maxFanout := by omega
  obtain ⟨owner, hl⟩ := bufferCandidates_collides hp ir.nets [] 0 (startGrowth ir) [] hlt
  have hrs : (bufferCandidates maxFanout 0 (candidates maxFanout ir.nets)
      { nets := ir.nets, growth := startGrowth ir }).2 = .error (collision owner) := hl
  have hr : bufferTransportHighFanoutNets ir maxFanout =
      { value := { ir with nets := (bufferCandidates maxFanout 0 (candidates maxFanout ir.nets)
          { nets := ir.nets, growth := startGrowth ir }).1.nets }
        result := .error (collision owner) } := by
    rw [bufferTransportHighFanoutNets, if_neg (by omega)]
    simp only [startGrowth] at hrs ⊢
    rw [hrs]
  rw [hr]
  refine ⟨⟨owner, rfl⟩, fun hs => ?_⟩
  have hs : (bufferCandidates maxFanout 0 (candidates maxFanout ir.nets)
      { nets := ir.nets, growth := startGrowth ir }).1.nets = ir.nets :=
    congrArg TransportIR.nets hs
  have hnd : ((candidates maxFanout ir.nets).map Prod.snd).Nodup :=
    nodup_candidatesFrom maxFanout 0 ir.nets
  cases hc : candidates maxFanout ir.nets with
  | nil =>
    obtain ⟨_, he, -⟩ := hlt
    rw [forest_eq_candidates, hc] at he
    exact absurd he not_mem_nil
  | cons first rest =>
    obtain ⟨net, position⟩ := first
    have hm : (net, position) ∈ candidates maxFanout ir.nets := hc ▸ mem_cons_self
    obtain ⟨hin, hn⟩ := mem_filter.mp hm
    have hps : ir.nets[position]? = some net := List.mk_mem_zipIdx_iff_getElem?.mp hin
    have hclear : Clear maxFanout (startGrowth ir) (net, 0) := by
      refine hf _ ?_
      rw [forest_eq_candidates, hc]
      rfl
    rw [hc, map_cons, nodup_cons] at hnd
    rw [hc, bufferCandidates,
      bufferCandidate_eq hp (isCandidate_sinks hn) hclear] at hs
    have hk := @getElem?_bufferCandidates maxFanout rest 1
      { nets := ir.nets.set position (net.rewired maxFanout 0)
        growth := (startGrowth ir).extend 0 net.id (planOf maxFanout 0 net).buffers
        records := [] ++ [recordOf maxFanout 0 net position] } position hnd.1
    have hch := (congrArg (fun nets : List Net => nets[position]?) hs).symm.trans hk
    dsimp only at hch
    rw [List.getElem?_set_self (List.getElem?_eq_some_iff.mp hps).1, hps] at hch
    have hrt : (net.rewired maxFanout 0).sinks.length ≤ maxFanout :=
      length_root_le hmax (le_of_eq length_sortedBy)
    rw [← Option.some.inj hch] at hrt
    have hmr : maxFanout < net.sinks.length := isCandidate_sinks hn
    omega

theorem early_collision (hmax : 2 ≤ maxFanout)
    (hf : ∃ entry ∈ (forest maxFanout 0 ir.nets).head?,
      ¬ Clear maxFanout (startGrowth ir) entry) : KeepsPromise ir maxFanout := by
  obtain ⟨entry, he, htk⟩ := hf
  rw [forest_eq_candidates] at he
  cases hc : candidates maxFanout ir.nets with
  | nil =>
    rw [hc] at he
    cases he
  | cons first rest =>
    rw [hc] at he
    obtain rfl : (first.1, 0) = entry := Option.some.inj he
    have ht : bufferCandidate maxFanout 0 (startGrowth ir) first.1 first.2 =
        .error (collision first.1.id) := bufferCandidate_collides (exists_taken htk)
    refine .inl ?_
    rw [bufferTransportHighFanoutNets, if_neg (by omega), hc]
    simp only [startGrowth] at ht
    simp only [bufferCandidates, ht]
    exact ⟨trivial, _, rfl⟩

/-- **When the promise is kept**: no generated identifier is taken, or one of the first candidate
is. -/
theorem bufferTransport_keeps_iff (hmax : 2 ≤ maxFanout) (hvalid : validate ir = .ok ()) :
    KeepsPromise ir maxFanout ↔
      (∀ entry ∈ forest maxFanout 0 ir.nets, Clear maxFanout (startGrowth ir) entry) ∨
        ∃ entry ∈ (forest maxFanout 0 ir.nets).head?, ¬ Clear maxFanout (startGrowth ir) entry := by
  constructor
  · intro hkeeps
    by_contra hnot
    rw [not_or] at hnot
    obtain ⟨hall, hfirst⟩ := hnot
    have hlate : ∃ entry ∈ forest maxFanout 0 ir.nets,
        ¬ Clear maxFanout (startGrowth ir) entry := by
      by_contra hnone
      refine hall fun entry hentry => ?_
      by_contra htaken
      exact hnone ⟨entry, hentry, htaken⟩
    have hclear : ∀ entry ∈ (forest maxFanout 0 ir.nets).head?,
        Clear maxFanout (startGrowth ir) entry := fun entry hentry => by
      by_contra htaken
      exact hfirst ⟨entry, hentry, htaken⟩
    obtain ⟨⟨owner, hraises⟩, hchanged⟩ := late_collision hmax hlate hclear
    rcases hkeeps with ⟨hsame, -⟩ | ⟨report, hreport, -⟩
    · exact hchanged hsame
    · rw [hraises] at hreport
      cases hreport
  · rintro (hclear | hfirst)
    · exact kept_after hmax (validate_iff.mp hvalid) hclear
    · exact early_collision hmax hfirst

/-! ## two nets with three sinks -/

def threeSinks (name driver : String) : Net where
  id := name
  cutClass := .combinational
  drivers := [outputPin driver]
  sinks := [inputPin "a", inputPin "b", inputPin "c"]
  fanout := some 3
  owner := none

def cellNamed (id : String) : Instance where
  id := id
  type := "$lut"
  resources := { lut := 1 }
  parameters := []
  attributes := []

def twoNets (instance₀ : String) : TransportIR where
  ports := []
  instances := ["a", "b", "c", instance₀].map cellNamed
  nets := [threeSinks "n" "a", threeSinks "m" "b"]

theorem bufferTransport_keeps_twoNets : KeepsPromise (twoNets "d") 2 ↔
      (∀ entry ∈ forest 2 0 (twoNets "d").nets, Clear 2 (startGrowth (twoNets "d")) entry) ∨
        ∃ entry ∈ (forest 2 0 (twoNets "d").nets).head?,
          ¬ Clear 2 (startGrowth (twoNets "d")) entry :=
  bufferTransport_keeps_iff (by decide) (by decide +kernel)

def takenId : String := "$emuflow_transport_fanout$000001$l00$g000000$buf"

theorem bufferTransport_breaks_promise :
    validate (twoNets takenId) = .ok () ∧ ¬ KeepsPromise (twoNets takenId) 2 := by
  have hraises : (bufferTransportHighFanoutNets (twoNets takenId) 2).result.isOk = false := by
    decide +kernel
  have hchanged : (bufferTransportHighFanoutNets (twoNets takenId) 2).value ≠ twoNets takenId := by
    decide +kernel
  refine ⟨by decide +kernel, ?_⟩
  rintro (⟨hsame, -⟩ | ⟨report, hreport, -⟩)
  · exact hchanged hsame
  · rw [hreport] at hraises
    cases hraises

end EmuFlow.TransportFanout
