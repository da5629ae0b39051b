import EmuFlow.Lib.Lockstep
import EmuFlow.Runtime
import EmuFlow.SystemTiming.Report

/-!
# The reported safe period

What a system timing report promises. The clocks of a runtime enter a path record in its virtual
period only, so two runtimes with the same clocks give paths that agree in everything else
(`Retimed`); the smallest safe period bounds the delay of every path.
-/

namespace EmuFlow.SystemTiming

open Check SortedSet Routing Tdm List Lockstep

def SameClocks (runtime runtime' : Runtime) : Prop :=
  runtime'.virtualDutClocks.map Prod.fst = runtime.virtualDutClocks.map Prod.fst

variable {runtime : Runtime}

theorem exists_clock {clockDomain : String} {period : ℚ}
    (h : runtimeClockPeriodNs runtime clockDomain = .ok period) :
    ∃ clock ∈ runtime.virtualDutClocks, clock.2 = period := by
  unfold runtimeClockPeriodNs at h
  split at h
  · cases h
  · next hf _ =>
    cases h
    obtain ⟨before, after, heq, -⟩ := lookup_eq_some_iff.mp hf
    exact ⟨_, heq ▸ mem_append_right before mem_cons_self, rfl⟩
  · next name found _ heq =>
    cases h
    rw [heq]
    exact ⟨_, mem_cons_self, rfl⟩
  · cases h

theorem isSome_lookup {κ β : Type} [DecidableEq κ] {l : List (κ × β)} {k : κ} :
    (l.lookup k).isSome ↔ k ∈ l.map Prod.fst := by
  rw [lookup_isSome_iff, mem_map]
  exact ⟨fun ⟨p, hp, hk⟩ => ⟨p, hp, (beq_iff_eq.mp hk).symm⟩,
    fun ⟨p, hp, hk⟩ => ⟨p, hp, beq_iff_eq.mpr hk.symm⟩⟩

theorem runtimeClockPeriodNs_lockstep {runtime runtime' : Runtime}
    (h : SameClocks runtime runtime') (clockDomain : String) :
    Lockstep (fun _ _ => True) (runtimeClockPeriodNs runtime clockDomain)
      (runtimeClockPeriodNs runtime' clockDomain) := by
  have hl : (runtime'.virtualDutClocks.lookup clockDomain).isSome ↔
      (runtime.virtualDutClocks.lookup clockDomain).isSome := by
    rw [isSome_lookup, isSome_lookup, h]
  unfold SameClocks at h
  unfold runtimeClockPeriodNs
  generalize runtime.virtualDutClocks.lookup clockDomain = found at hl ⊢
  generalize runtime'.virtualDutClocks.lookup clockDomain = found' at hl ⊢
  generalize runtime.virtualDutClocks = clocks at h ⊢
  generalize runtime'.virtualDutClocks = clocks' at h ⊢
  -- the number of clocks is the same, and so is whether the domain is one of them
  rcases clocks with _ | ⟨clock, _ | ⟨second, rest⟩⟩
  · rw [map_nil, map_eq_nil_iff] at h
    subst h
    exact .raised _
  · obtain ⟨clock', rfl, -⟩ := map_eq_singleton_iff.mp h
    cases found <;> cases found' <;> exact .returned trivial
  · obtain ⟨clock', _, rfl, -, h⟩ := map_eq_cons_iff.mp h
    obtain ⟨second', _, rfl, -, -⟩ := map_eq_cons_iff.mp h
    cases found <;> cases found' <;>
      first | exact .returned trivial | exact .raised _ | simp at hl

/-! ## paths under two runtimes -/

/-- A path record without what the clock of its runtime decides. -/
def SystemPath.unclocked (p : SystemPath) : SystemPath :=
  { p with virtualPeriodNs := 0, runtimeRequiredTimeNs := 0, runtimeClockSlackBoundNs := 0 }

def Retimed (ps qs : List SystemPath) : Prop :=
  ps.map SystemPath.unclocked = qs.map SystemPath.unclocked

namespace Retimed

variable {ps qs rs ss : List SystemPath}

theorem of_forall₂ (h : Forall₂ (fun p q => SystemPath.unclocked p = SystemPath.unclocked q)
    ps qs) : Retimed ps qs := by
  unfold Retimed
  induction h with
  | nil => rfl
  | cons hp _ ih => rw [map_cons, map_cons, hp, ih]

theorem append (h : Retimed ps qs) (h' : Retimed rs ss) : Retimed (ps ++ rs) (qs ++ ss) := by
  unfold Retimed
  rw [map_append, map_append, h, h']

theorem flatten {pss qss : List (List SystemPath)} (h : Forall₂ Retimed pss qss) :
    Retimed pss.flatten qss.flatten := by
  induction h with
  | nil => rfl
  | cons hp _ ih => exact hp.append ih

theorem sortedByPath (h : Retimed ps qs) :
    Retimed (sortedBy SystemPath.path ps) (sortedBy SystemPath.path qs) := by
  unfold Retimed
  have hk : ∀ p : SystemPath, p.unclocked.path = p.path := fun _ => rfl
  rw [map_sortedBy hk, map_sortedBy hk, h]

theorem map_eq {α : Type} {f : SystemPath → α} (h : Retimed ps qs)
    (hf : ∀ p, f p.unclocked = f p) : ps.map f = qs.map f := by
  have hm := congrArg (List.map f) h
  rw [map_map, map_map] at hm
  simpa only [Function.comp_def, hf] using hm

theorem exists_of_mem (h : Retimed ps qs) {q : SystemPath} (hq : q ∈ qs) :
    ∃ p ∈ ps, p.unclocked = q.unclocked :=
  mem_map.mp (h ▸ mem_map_of_mem hq)

end Retimed

theorem localSystemPath_lockstep {runtime runtime' : Runtime} (h : SameClocks runtime runtime')
    (fpga : String) (item : LocalPath) :
    Lockstep (fun p q => p.unclocked = q.unclocked) (localSystemPath runtime fpga item)
      (localSystemPath runtime' fpga item) := by
  refine (runtimeClockPeriodNs_lockstep h item.clockDomain).bind fun _ _ _ => ?_
  refine bind_same _ fun _ _ => ?_
  exact .returned rfl

section
variable {E : Type} (readers : TimingReaders E)

variable {runtime runtime' : Runtime}

theorem addLocalPath_lockstep (h : SameClocks runtime runtime')
    (fpga : String) (item : LocalPath) {ps qs : List SystemPath} (hpq : Retimed ps qs) :
    Lockstep Retimed (addLocalPath runtime fpga ps item) (addLocalPath runtime' fpga qs item) := by
  unfold addLocalPath
  rw [hpq.map_eq (f := SystemPath.path) fun _ => rfl]
  refine bind_same _ fun _ _ => ?_
  refine (localSystemPath_lockstep h fpga item).bind fun p q hp => ?_
  exact .returned (hpq.append (.of_forall₂ (.cons hp .nil)))

def RetimedState (s t : List SystemPath × Option LocalPathSource) : Prop :=
  Retimed s.1 t.1 ∧ s.2 = t.2

section

variable (h : SameClocks runtime runtime')
include h

theorem addLocalDatabase_lockstep
    (item : String × LocalPathDatabase E) {s t : List SystemPath × Option LocalPathSource}
    (hs : RetimedState s t) : Lockstep RetimedState (addLocalDatabase readers runtime s item)
      (addLocalDatabase readers runtime' t item) := by
  unfold addLocalDatabase
  rw [hs.2]
  refine bind_same _ fun _ _ => ?_
  refine bind_same _ fun _ _ => ?_
  refine bind_same _ fun _ _ => ?_
  refine (foldlM (fun path _ _ _ hp => addLocalPath_lockstep h item.1 path hp)
    hs.1).bind fun ps qs hp => ?_
  exact .returned ⟨hp, rfl⟩

theorem localPathDatabase_lockstep
    (summary : PhysicalSummary E) (routesArtifactSha256 : Option String) :
    Lockstep RetimedState (localPathDatabase readers summary runtime routesArtifactSha256)
      (localPathDatabase readers summary runtime' routesArtifactSha256) := by
  unfold localPathDatabase
  split
  · exact .returned ⟨rfl, rfl⟩
  · refine bind_same _ fun _ _ => ?_
    refine (foldlM (fun item _ _ _ hs => addLocalDatabase_lockstep readers h item hs)
      ⟨rfl, rfl⟩).bind fun s t hs => ?_
    obtain ⟨ps, source⟩ := s
    obtain ⟨qs, source'⟩ := t
    obtain ⟨hp, rfl⟩ := hs
    refine bind_same _ fun _ _ => ?_
    exact .returned ⟨hp.sortedByPath, rfl⟩

theorem crossPaths_lockstep (dbs : TimingDatabases) (platform : Platform) (schedule : TdmSchedule)
    (fixedSlot : Option TransportContext) (sampled : Bool) (record : PathRecord) :
    Lockstep Retimed (crossPaths dbs platform schedule fixedSlot sampled runtime record)
      (crossPaths dbs platform schedule fixedSlot sampled runtime' record) := by
  unfold crossPaths
  refine bind_same _ fun _ _ => ?_
  refine bind_same _ fun _ _ => ?_
  refine bind_same _ fun _ _ => ?_
  refine bind_same _ fun _ _ => ?_
  refine bind_same _ fun _ _ => ?_
  refine bind_same _ fun _ _ => ?_
  refine (runtimeClockPeriodNs_lockstep h record.clockDomain).bind fun _ _ _ => ?_
  refine (mapM fun member _ => ?_).mono fun ps qs hp => .of_forall₂ hp
  refine bind_same _ fun _ _ => ?_
  exact .returned rfl

theorem timedPaths_lockstep
    (schedule : TdmSchedule) (summary : PhysicalSummary E) (platform : Platform)
    (routesArtifactSha256 : Option String) (inputs : TimingInputs E) :
    Lockstep (fun s t => Retimed s.systemPaths t.systemPaths ∧ s.source = t.source)
      (timedPaths readers runtime schedule summary platform routesArtifactSha256 inputs)
      (timedPaths readers runtime' schedule summary platform routesArtifactSha256 inputs) := by
  unfold timedPaths
  refine (mapM fun r _ => crossPaths_lockstep h _ _ _ _ _ r).bind
    fun ps qs hp => ?_
  refine (localPathDatabase_lockstep readers h summary routesArtifactSha256).bind fun s t hs => ?_
  exact .returned ⟨(hs.1.append (.flatten hp)).sortedByPath, hs.2⟩

end

end

/-! ## the records of accepted paths -/

/-- A record whose slacks are those of its delay, under a clock of the runtime. -/
structure SystemPath.Sound (runtime : Runtime) (p : SystemPath) : Prop where
  adjustment_eq : p.sourceRequiredTimeAdjustmentNs = p.targetPeriodNs - p.targetRequiredTimeNs
  slack_eq : p.runtimeClockSlackBoundNs =
    p.virtualPeriodNs - p.sourceRequiredTimeAdjustmentNs - p.systemDelayBoundNs
  clocked : ∃ clock ∈ runtime.virtualDutClocks, clock.2 = p.virtualPeriodNs
  judged : ∀ event ∈ p.event, event.Judged

theorem localSystemPath_sound {fpga : String} {item : LocalPath}
    {p : SystemPath} (h : localSystemPath runtime fpga item = .ok p) :
    p.Sound runtime ∧ p.pathScope = .sameFpgaLocal := by
  obtain ⟨period, hp, h⟩ := bind_eq_ok.mp h
  obtain ⟨model, -, h⟩ := bind_eq_ok.mp h
  cases h
  exact ⟨⟨rfl, rfl, exists_clock hp, by simp⟩, rfl⟩

theorem memberDelays_event {ctx : CrossContext} {record : PathRecord} {member : String}
    {delays : MemberDelays} (h : memberDelays ctx record member = .ok delays) :
    ∀ event ∈ delays.event, event.Judged := by
  unfold memberDelays at h
  split at h
  · cases h
    simp [maximaDelays]
  · obtain ⟨measurement, -, h⟩ := bind_eq_ok.mp h
    split at h
    · cases h
      simp [measuredDelays]
    · obtain ⟨event, hev, h⟩ := bind_eq_ok.mp h
      cases h
      intro e he
      cases he
      exact fixedSlotEvent_judged hev

theorem crossPaths_sound {dbs : TimingDatabases} {platform : Platform} {schedule : TdmSchedule}
    {fixedSlot : Option TransportContext} {sampled : Bool}
    {record : PathRecord} {ps : List SystemPath}
    (h : crossPaths dbs platform schedule fixedSlot sampled runtime record = .ok ps) :
    ∀ p ∈ ps, p.Sound runtime := by
  obtain ⟨partitions, -, h⟩ := bind_eq_ok.mp h
  simp only [bind_eq_ok] at h
  obtain ⟨found, -, interface, -, physical, -, -, -, transport, -, period, hpr, h⟩ := h
  intro p hp
  obtain ⟨member, -, hm⟩ := exists_of_mem_mapM h hp
  obtain ⟨delays, hd, hm⟩ := bind_eq_ok.mp hm
  cases hm
  exact ⟨rfl, rfl, exists_clock hpr, memberDelays_event hd⟩

section
variable {E : Type} {readers : TimingReaders E}

variable {ps qs : List SystemPath}

theorem addLocalPath_sound {runtime : Runtime} {fpga : String} {item : LocalPath}
    (h : addLocalPath runtime fpga ps item = .ok qs)
    (hps : ∀ p ∈ ps, p.Sound runtime ∧ p.pathScope = .sameFpgaLocal) :
    ∀ p ∈ qs, p.Sound runtime ∧ p.pathScope = .sameFpgaLocal := by
  obtain ⟨-, h⟩ := raiseIf_bind.mp h
  obtain ⟨r, hr, h⟩ := bind_eq_ok.mp h
  cases h
  intro p hp
  rcases List.mem_append.mp hp with hp | hp
  · exact hps p hp
  · obtain rfl := mem_singleton.mp hp
    exact localSystemPath_sound hr

theorem localPathDatabase_sound {summary : PhysicalSummary E} {runtime : Runtime}
    {routesArtifactSha256 : Option String} {found : List SystemPath × Option LocalPathSource}
    (h : localPathDatabase readers summary runtime routesArtifactSha256 = .ok found) :
    ∀ p ∈ found.1, p.Sound runtime ∧ p.pathScope = .sameFpgaLocal := by
  unfold localPathDatabase at h
  split at h
  · cases h
    simp
  · obtain ⟨-, h⟩ := raiseIf_bind.mp h
    simp only [bind_eq_ok] at h
    obtain ⟨⟨ps, source⟩, hf, -, -, h⟩ := h
    cases h
    -- every turn over an FPGA adds the records of its paths
    have hps := foldlM_invariant (fun s : List SystemPath × Option LocalPathSource =>
        ∀ p ∈ s.1, p.Sound runtime ∧ p.pathScope = .sameFpgaLocal)
      (fun item _ s t hs hst => by
        obtain ⟨-, -, hst⟩ := bind_eq_ok.mp hst
        simp only [raiseIf_bind] at hst
        obtain ⟨-, -, hst⟩ := hst
        obtain ⟨records, hr, hst⟩ := bind_eq_ok.mp hst
        cases hst
        exact foldlM_invariant _ (fun _ _ _ _ ht ha => addLocalPath_sound ha ht) hs hr)
      (by simp) hf
    exact fun p hp => hps p (mem_sortedBy.mp hp)

variable {p : SystemPath}

theorem timedPaths_sound {runtime : Runtime} {schedule : TdmSchedule}
    {summary : PhysicalSummary E} {platform : Platform} {routesArtifactSha256 : Option String}
    {inputs : TimingInputs E} {timed : TimedPaths}
    (h : timedPaths readers runtime schedule summary platform routesArtifactSha256 inputs =
      .ok timed) (hp : p ∈ timed.systemPaths) :
    p.Sound runtime ∧ (p.pathScope = .crossFpga → p ∈ timed.crossing) := by
  obtain ⟨crossing, hcr, h⟩ := bind_eq_ok.mp h
  obtain ⟨⟨localPaths, source⟩, hl, h⟩ := bind_eq_ok.mp h
  cases h
  rcases List.mem_append.mp (mem_sortedBy.mp hp) with hp | hp
  · obtain ⟨hs, hsc⟩ := localPathDatabase_sound hl p hp
    exact ⟨hs, fun hc => by rw [hsc] at hc; cases hc⟩
  · obtain ⟨ps, hps, hm⟩ := mem_flatten.mp hp
    obtain ⟨r, -, hr⟩ := exists_of_mem_mapM hcr hps
    exact ⟨crossPaths_sound hr p hm, fun _ => hp⟩

theorem le_foldl_max {l : List ℚ} {a : ℚ} : a ≤ l.foldl max a ∧ ∀ b ∈ l, b ≤ l.foldl max a := by
  induction l generalizing a with
  | nil => simp
  | cons c l ih =>
    obtain ⟨hle, ha⟩ := ih (a := max a c)
    refine ⟨(le_max_left a c).trans hle, fun b hb => ?_⟩
    rcases mem_cons.mp hb with rfl | hb
    · exact (le_max_right a b).trans hle
    · exact ha b hb

variable {paths : List SystemPath}

theorem le_maximumDelay {maximum : ℚ} (h : maximumDelay paths = .ok maximum) (hp : p ∈ paths) :
    p.systemDelayBoundNs ≤ maximum := by
  cases paths with
  | nil => cases h
  | cons first rest =>
    cases h
    rcases mem_cons.mp hp with rfl | hp
    · exact le_foldl_max.1
    · exact le_foldl_max.2 _ (mem_map_of_mem hp)

variable {slack : SystemPath → ℚ}

theorem worstBy_le {worst : SystemPath} (h : worstBy slack paths = .ok worst) (hp : p ∈ paths) :
    slack worst ≤ slack p := by
  unfold worstBy at h
  have hs := pairwise_sortedBy (fun p : SystemPath => lex (slack p) p.path) paths
  have hm : p ∈ sortedBy (fun p : SystemPath => lex (slack p) p.path) paths := mem_sortedBy.mpr hp
  generalize sortedBy (fun p : SystemPath => lex (slack p) p.path) paths = ordered
    at h hs hm
  cases ordered with
  | nil => cases hm
  | cons first rest =>
    cases h
    rcases mem_cons.mp hm with rfl | hm
    · exact le_rfl
    · have hle := (pairwise_cons.mp hs).1 p hm
      rcases (Prod.Lex.le_iff).mp hle with hlt | ⟨heq, -⟩
      · exact hlt.le
      · exact heq.le

theorem clockSummary_eq_ok {summary : ClockSummary} (h : clockSummary slack paths = .ok summary)
    (hp : p ∈ paths) : summary.worstSlackBoundNs ≤ slack p := by
  obtain ⟨worst, hw, h⟩ := bind_eq_ok.mp h
  cases h
  exact worstBy_le hw hp

/-! ## status -/

variable {counts : EventCounts}

theorem fixedSlotStatus_pass {fixedSlot : Bool} {status : TimingStatus}
    (h : fixedSlotStatus fixedSlot counts status = .pass) : status = .pass ∧
      (fixedSlot = true → counts.fixedSlotEventPaths = counts.crossPaths ∧
        counts.fixedSlotEventFailures = 0) := by
  unfold fixedSlotStatus at h
  split_ifs at h with hfx hp hf
  · exact ⟨h, fun _ => ⟨not_not.mp hp, not_not.mp hf⟩⟩
  · exact ⟨h, fun hc => absurd hc hfx⟩

variable {deadlines : Option (ExactDeadlines E)}

theorem exactStatus_pass
    {status : TimingStatus} (h : exactStatus deadlines counts status = .pass) : status = .pass := by
  unfold exactStatus at h
  split at h
  · exact h
  · split_ifs at h
    exact h

theorem reportStatus_pass {runtimeWns : ℚ} {fixedSlot : Bool}
    (h : reportStatus runtimeWns fixedSlot deadlines counts = .pass) : 0 ≤ runtimeWns ∧
      (fixedSlot = true → counts.fixedSlotEventPaths = counts.crossPaths ∧
        counts.fixedSlotEventFailures = 0) := by
  obtain ⟨hw, he⟩ := fixedSlotStatus_pass (exactStatus_pass h)
  refine ⟨?_, he⟩
  by_contra hn
  rw [if_neg hn] at hw
  cases hw

theorem event_of_counts {runtime : Runtime}
    (ha : (eventCounts paths).fixedSlotEventPaths = (eventCounts paths).crossPaths)
    (hn : (eventCounts paths).fixedSlotEventFailures = 0) (hp : p ∈ paths)
    (hs : p.Sound runtime) : ∃ event ∈ p.event, event.WithinTolerance := by
  have hsm := countP_eq_length.mp ha p hp
  obtain ⟨event, he⟩ := Option.isSome_iff_exists.mp hsm
  have hfl := countP_eq_zero.mp hn p hp
  rcases hs.judged event he with ⟨-, hw⟩ | ⟨hf, -⟩
  · exact ⟨event, he, hw⟩
  · exact absurd (decide_eq_true ⟨event, he, hf⟩) hfl

structure Built (readers : TimingReaders E) (runtime : Runtime) (routes : RoutesArtifact)
    (schedule : TdmSchedule) (phase5 : Option Phase5Timing) (summary : PhysicalSummary E)
    (platform : Platform) (routesArtifactSha256 : Option String) (semanticContract : Option E)
    (report : SystemTimingReport E) (inputs : TimingInputs E) (timed : TimedPaths) : Prop where
  read : readTimingInputs readers routes schedule phase5 summary platform semanticContract =
    .ok inputs
  timed_eq : timedPaths readers runtime schedule summary platform routesArtifactSha256 inputs =
    .ok timed
  covered : checkCoverage readers timed.systemPaths timed.source = .ok ()
  paths_eq : report.paths = timed.systemPaths
  maximum_eq : maximumDelay report.paths = .ok report.runtimeClock.minimumSafePeriodBoundNs
  minimum_ne : report.runtimeClock.minimumSafePeriodBoundNs ≠ 0
  worst_eq : clockSummary SystemPath.runtimeClockSlackBoundNs report.paths =
    .ok report.runtimeClock.toClockSummary
  period_eq : ∃ period, lastVirtualPeriod runtime inputs.records = .ok period
  status_eq : report.status = reportStatus report.runtimeClock.worstSlackBoundNs
    inputs.fixedSlot.isSome inputs.deadlines (eventCounts timed.crossing)

theorem floatDivision_eq_ok {a b c : ℚ} : floatDivision a b = .ok c ↔ b ≠ 0 ∧ c = a / b := by
  unfold floatDivision
  rw [raiseIf_bind]
  exact and_congr_right fun _ => ⟨fun h => (Except.ok.inj h).symm, fun h => by rw [h]; rfl⟩

theorem buildSystemTiming_eq_ok {runtime : Runtime} {routes : RoutesArtifact}
    {schedule : TdmSchedule} {phase5 : Option Phase5Timing} {summary : PhysicalSummary E}
    {platform : Platform} {routesArtifactSha256 : Option String} {semanticContract : Option E}
    {report : SystemTimingReport E}
    (h : buildSystemTiming readers runtime routes schedule phase5 summary platform
      routesArtifactSha256 semanticContract = .ok report) :
    ∃ inputs timed, Built readers runtime routes schedule phase5 summary platform
      routesArtifactSha256 semanticContract report inputs timed := by
  obtain ⟨inputs, hr, h⟩ := bind_eq_ok.mp h
  obtain ⟨timed, ht, h⟩ := bind_eq_ok.mp h
  obtain ⟨⟨⟩, hc, h⟩ := bind_eq_ok.mp h
  simp only [bind_eq_ok] at h
  obtain ⟨target, -, worst, hw, maximum, hm, period, hp, frequency, -, maximumFrequency, hf, h⟩ := h
  cases h
  exact ⟨inputs, timed, hr, ht, hc, rfl, hm,
    (floatDivision_eq_ok.mp hf).1, hw, ⟨period, hp⟩, rfl⟩

/-! ## the same inputs under other periods -/

theorem checkCoverage_congr (h : Retimed ps qs) (source : Option LocalPathSource) :
    checkCoverage readers qs source = checkCoverage readers ps source := by
  have hp := h.map_eq (f := SystemPath.path) fun _ => rfl
  have hl : ps.length = qs.length := by simpa using congrArg List.length hp
  unfold checkCoverage
  rw [hp, hl]

theorem maximumDelay_congr (h : Retimed ps qs) : maximumDelay qs = maximumDelay ps := by
  have hd := h.map_eq (f := SystemPath.systemDelayBoundNs) fun _ => rfl
  cases ps with
  | nil =>
    rw [map_nil] at hd
    rw [map_eq_nil_iff.mp hd.symm]
  | cons p ps =>
    obtain ⟨q, qs, rfl, hf, hr⟩ := map_eq_cons_iff.mp hd.symm
    unfold maximumDelay
    dsimp only
    rw [hf, hr]

theorem exists_clockSummary (slack : SystemPath → ℚ) (h : paths ≠ []) :
    ∃ summary, clockSummary slack paths = .ok summary := by
  refine exists_bind_eq_ok.mpr ?_
  unfold worstBy
  split
  · exact ⟨_, rfl, _, rfl⟩
  · next hn =>
    have hl :
        (sortedBy (fun p : SystemPath => lex (slack p) p.path) paths).length = paths.length :=
      length_sortedBy
    rw [List.head?_eq_none_iff.mp hn, length_nil] at hl
    exact absurd (length_eq_zero_iff.mp hl.symm) h

theorem lastVirtualPeriod_lockstep {runtime runtime' : Runtime} (h : SameClocks runtime runtime')
    (records : List PathRecord) : Lockstep (fun _ _ => True) (lastVirtualPeriod runtime records)
      (lastVirtualPeriod runtime' records) := by
  unfold lastVirtualPeriod
  split
  · exact runtimeClockPeriodNs_lockstep h _
  · exact .raised _

theorem exists_clock_of_lastVirtualPeriod {runtime : Runtime} {records : List PathRecord}
    {period : ℚ} (h : lastVirtualPeriod runtime records = .ok period) :
    ∃ clock ∈ runtime.virtualDutClocks, clock.2 = period := by
  unfold lastVirtualPeriod at h
  split at h
  · exact exists_clock h
  · cases h

variable {runtime runtime' : Runtime} {routes : RoutesArtifact} {schedule : TdmSchedule}
  {phase5 : Option Phase5Timing} {summary : PhysicalSummary E} {platform : Platform}
  {routesArtifactSha256 : Option String} {semanticContract : Option E}
  {report report' : SystemTimingReport E} {inputs : TimingInputs E} {timed timed' : TimedPaths}

section

variable (hb : Built readers runtime routes schedule phase5 summary platform routesArtifactSha256
  semanticContract report inputs timed)
include hb

theorem Built.exists_retimed (hsm : SameClocks runtime runtime') :
    ∃ timed', timedPaths readers runtime' schedule summary platform routesArtifactSha256 inputs =
      .ok timed' ∧ Retimed report.paths timed'.systemPaths ∧ timed.source = timed'.source := by
  obtain ⟨timed', ht', hr, hs⟩ := (timedPaths_lockstep readers hsm schedule summary
    platform routesArtifactSha256 inputs).exists_of_eq_ok hb.timed_eq
  exact ⟨timed', ht', hb.paths_eq ▸ hr, hs⟩

theorem Built.slack_of_period (hpr : ∀ clock ∈ runtime'.virtualDutClocks,
      report.runtimeClock.minimumSafePeriodBoundNs ≤ clock.2)
    (ht' : timedPaths readers runtime' schedule summary platform routesArtifactSha256 inputs =
      .ok timed') (hr : Retimed report.paths timed'.systemPaths) {q : SystemPath}
    (hq : q ∈ timed'.systemPaths) :
    q.targetRequiredTimeNs - q.targetPeriodNs ≤ q.runtimeClockSlackBoundNs := by
  obtain ⟨p, hp, hpq⟩ := hr.exists_of_mem hq
  have hd : p.systemDelayBoundNs = q.systemDelayBoundNs := by
    show p.unclocked.systemDelayBoundNs = q.unclocked.systemDelayBoundNs
    rw [hpq]
  have hmax : q.systemDelayBoundNs ≤ report.runtimeClock.minimumSafePeriodBoundNs :=
    hd ▸ le_maximumDelay hb.maximum_eq hp
  obtain ⟨hs, -⟩ := timedPaths_sound ht' hq
  obtain ⟨clock, hc, heq⟩ := hs.clocked
  have hle : report.runtimeClock.minimumSafePeriodBoundNs ≤ q.virtualPeriodNs :=
    heq ▸ hpr clock hc
  rw [hs.slack_eq, hs.adjustment_eq]
  linarith

theorem Built.exists_report
    (hs : SameClocks runtime runtime') (hne : ∀ clock ∈ runtime'.virtualDutClocks, clock.2 ≠ 0) :
    ∃ report', buildSystemTiming readers runtime' routes schedule phase5 summary platform
      routesArtifactSha256 semanticContract = .ok report' := by
  obtain ⟨timed', ht', hr, hsr⟩ := hb.exists_retimed hs
  have hc : checkCoverage readers timed'.systemPaths timed'.source = .ok () := by
    rw [← hsr, checkCoverage_congr hr, hb.paths_eq]
    exact hb.covered
  have hm := (maximumDelay_congr hr).trans hb.maximum_eq
  have hp : timed'.systemPaths ≠ [] := by
    intro hn
    rw [hn] at hm
    cases hm
  obtain ⟨target, htr⟩ := exists_clockSummary SystemPath.targetClockSlackBoundNs hp
  obtain ⟨worst, hw⟩ := exists_clockSummary SystemPath.runtimeClockSlackBoundNs hp
  obtain ⟨period, ho⟩ := hb.period_eq
  obtain ⟨period', hpr, -⟩ :=
    (lastVirtualPeriod_lockstep hs inputs.records).exists_of_eq_ok ho
  obtain ⟨clock, hcl, rfl⟩ := exists_clock_of_lastVirtualPeriod hpr
  refine exists_bind_eq_ok.mpr ⟨inputs, hb.read, exists_bind_eq_ok.mpr ⟨timed', ht', ?_⟩⟩
  refine exists_bind_eq_ok.mpr ⟨(), hc, exists_bind_eq_ok.mpr ⟨target, htr, ?_⟩⟩
  refine exists_bind_eq_ok.mpr ⟨worst, hw, exists_bind_eq_ok.mpr ⟨_, hm, ?_⟩⟩
  refine exists_bind_eq_ok.mpr ⟨_, hpr, exists_bind_eq_ok.mpr
    ⟨_, floatDivision_eq_ok.mpr ⟨hne clock hcl, rfl⟩, ?_⟩⟩
  exact exists_bind_eq_ok.mpr ⟨_, floatDivision_eq_ok.mpr ⟨hb.minimum_ne, rfl⟩, _, rfl⟩

theorem Built.of_pass (hps : report.status = .pass) (hp : p ∈ report.paths) :
    0 ≤ p.runtimeClockSlackBoundNs ∧ (inputs.fixedSlot.isSome → p.pathScope = .crossFpga →
      ∃ event ∈ p.event, event.WithinTolerance) := by
  obtain ⟨hw, he⟩ := reportStatus_pass (hb.status_eq ▸ hps)
  obtain ⟨hs, hc⟩ := timedPaths_sound hb.timed_eq (hb.paths_eq ▸ hp)
  refine ⟨hw.trans (clockSummary_eq_ok hb.worst_eq hp), fun hf hsc => ?_⟩
  obtain ⟨ha, hn⟩ := he hf
  exact event_of_counts ha hn (hc hsc) hs

end

theorem fixedSlot_isSome (h : readTimingInputs readers routes schedule phase5 summary platform
      semanticContract = .ok inputs) (hf : isFixedSlotTransportSchedule schedule = true) :
    inputs.fixedSlot.isSome := by
  obtain ⟨records, -, h⟩ := bind_eq_ok.mp h
  obtain ⟨-, h⟩ := raiseIf_bind.mp h
  obtain ⟨-, -, h⟩ := bind_eq_ok.mp h
  obtain ⟨delays, -, h⟩ := bind_eq_ok.mp h
  obtain ⟨endpointDelays, -, h⟩ := bind_eq_ok.mp h
  obtain ⟨logicSegments, -, h⟩ := bind_eq_ok.mp h
  obtain ⟨boardLinkDelays, -, h⟩ := bind_eq_ok.mp h
  obtain ⟨deadlines, -, h⟩ := bind_eq_ok.mp h
  obtain ⟨fixedSlot, hc, h⟩ := bind_eq_ok.mp h
  simp only [raiseIf_bind] at h
  obtain ⟨-, -, h⟩ := h
  cases h
  unfold transportContext at hc
  rw [if_pos hf] at hc
  obtain ⟨commitSlot, -, hc⟩ := bind_eq_ok.mp hc
  cases hc
  rfl

end

/-- **The reported minimum period and the passing status.** Under any periods of at least the
reported minimum, the same inputs give the same paths, each with a slack of at least what its
required time exceeds its target period by; and a passing report has slacks that are not negative
and, on a fixed-slot schedule, an event within the tolerance for every crossing path. -/
theorem buildSystemTiming_safe {E : Type} {readers : TimingReaders E} {runtime : Runtime}
    {routes : RoutesArtifact} {schedule : TdmSchedule} {phase5 : Option Phase5Timing}
    {summary : PhysicalSummary E} {platform : Platform} {routesArtifactSha256 : Option String}
    {semanticContract : Option E} {report : SystemTimingReport E}
    (h : buildSystemTiming readers runtime routes schedule phase5 summary platform
      routesArtifactSha256 semanticContract = .ok report) :
    (∀ runtime', SameClocks runtime runtime' → (∀ clock ∈ runtime'.virtualDutClocks,
        report.runtimeClock.minimumSafePeriodBoundNs ≤ clock.2) →
      ((∀ clock ∈ runtime'.virtualDutClocks, clock.2 ≠ 0) →
        ∃ report', buildSystemTiming readers runtime' routes schedule phase5 summary platform
          routesArtifactSha256 semanticContract = .ok report') ∧
      ∀ report', buildSystemTiming readers runtime' routes schedule phase5 summary platform
          routesArtifactSha256 semanticContract = .ok report' →
        Retimed report.paths report'.paths ∧ ∀ p ∈ report'.paths,
          p.targetRequiredTimeNs - p.targetPeriodNs ≤ p.runtimeClockSlackBoundNs) ∧
    (report.status = .pass → ∀ p ∈ report.paths, 0 ≤ p.runtimeClockSlackBoundNs ∧
      (isFixedSlotTransportSchedule schedule → p.pathScope = .crossFpga →
        ∃ event ∈ p.event, event.WithinTolerance)) := by
  obtain ⟨inputs, timed, hb⟩ := buildSystemTiming_eq_ok h
  refine ⟨fun runtime' hsame hperiod => ⟨hb.exists_report hsame, fun report' h' => ?_⟩,
    fun hpass p hp => ?_⟩
  · obtain ⟨inputs', timed', hb'⟩ := buildSystemTiming_eq_ok h'
    obtain rfl : inputs = inputs' := Except.ok.inj (hb.read.symm.trans hb'.read)
    obtain ⟨timed₂, htimed₂, hret, -⟩ := hb.exists_retimed hsame
    obtain rfl : timed' = timed₂ := Except.ok.inj (hb'.timed_eq.symm.trans htimed₂)
    rw [hb'.paths_eq]
    exact ⟨hret, fun p hp => hb.slack_of_period hperiod htimed₂ hret hp⟩
  · obtain ⟨hslack, hevent⟩ := hb.of_pass hpass hp
    exact ⟨hslack, fun hfixed => hevent (fixedSlot_isSome hb.read hfixed)⟩

/-! ## a path that has to arrive early -/

def plainReaders : TimingReaders Unit :=
  { validateBoundaryTimingDatabase := fun _ _ => .ok ()
    validateLogicSegmentTiming := fun _ => .ok ()
    validateLocalPathTiming := fun _ => .ok ()
    validateBoardLinkTiming := fun _ _ => .ok ()
    staticExactSegmentDeadlines := fun _ _ _ _ =>
      .ok { status := .pass, commitSlot := 7, evidence := () }
    pathIdSetSha256 := fun _ => "" }

def oneClock (periodNs : ℚ) : Runtime :=
  { design := "design", virtualDutClocks := [("clk", periodNs)]
    names_nodup := nodup_singleton _ }

def earlyRoutes : RoutesArtifact :=
  { EmuFlow.Runtime.oneNetRoutes false with
    timing := some
      { paths := [{ path := "p", clockDomain := "clk", clockPeriodNs := 200
                    requiredTimeNs := some 150, fixedDelayNs := 0, cutNets := ["n"]
                    cutTransitions := some [⟨"n", "f0", "f1"⟩] }]
        normalization := { positiveSlackScaleNs := 1, negativeSlackScaleNs := 1
                           maxClockPeriodNs := 200 } } }

/-- The segments before and after the cut; the capture is late by half of the tolerance. -/
def earlySegments : List RoutedSegment :=
  [{ id := "g0", systemPath := "p", memberPath := "p", kind := .launch, cutIndex := 0
     delayNs := 2, replaceTxEndpoint := some "__emuflow_tx_s000000" },
   { id := "g1", systemPath := "p", memberPath := "p", kind := .capture, cutIndex := 1
     delayNs := 55 + 1 / 2000000000, replaceTxEndpoint := none }]

def earlySummary : PhysicalSummary Unit :=
  { fpgas := ["f0", "f1", "f2"].map fun fpga =>
      { fpga := fpga, clockDomainDelaysNs := [("dut", 10), ("cross", 5)] }
    boundaryTiming := some
      [("f0", { endpoints := [⟨"__emuflow_tx_s000000", 1⟩], evidence := () }),
       ("f1", { endpoints := [⟨"__emuflow_rx_s000000", 5⟩], evidence := () })]
    boundaryIdentities := some [("f0", ()), ("f1", ())]
    logicSegmentTiming := some [("f1", { fpga := "f1", segments := earlySegments, evidence := () })]
      }

def earlyReport (periodNs : ℚ) : Result (SystemTimingReport Unit) :=
  buildSystemTiming plainReaders (oneClock periodNs) earlyRoutes
    (EmuFlow.Runtime.oneNetSchedule false)
    (some { status := "pass", worstDelayNs := some 10, worstSlackNs := some 140 }) earlySummary
    EmuFlow.Runtime.lineBoard none none

/-- The report passes with a negative capture slack, and its minimum period is not safe: one
nanosecond above it, the path misses its required time. -/
theorem earlyReport_unsafe : (∃ report, earlyReport 200 = .ok report ∧ report.status = .pass ∧
      (∃ p ∈ report.paths, ∃ event ∈ p.event, event.captureCommitSlackNs < 0) ∧
      report.runtimeClock.minimumSafePeriodBoundNs ≤ 71) ∧
    ∃ report, earlyReport 71 = .ok report ∧ ∃ p ∈ report.paths, p.runtimeClockSlackBoundNs < 0 :=
  ⟨exists_of_returns (by decide +kernel), exists_of_returns (by decide +kernel)⟩

/-- At that period no path lacks more than its required time precedes its target period. -/
theorem earlyReport_bounded :
    ∃ report report', earlyReport 200 = .ok report ∧ earlyReport 71 = .ok report' ∧
      (∀ p ∈ report'.paths, p.targetRequiredTimeNs - p.targetPeriodNs ≤
        p.runtimeClockSlackBoundNs) ∧ ∀ p ∈ report.paths, 0 ≤ p.runtimeClockSlackBoundNs := by
  have hrun : returns (fun report => report.status = .pass ∧
      report.runtimeClock.minimumSafePeriodBoundNs ≤ 71) (earlyReport 200) = true := by
    decide +kernel
  obtain ⟨report, h, hpass, hmin⟩ := exists_of_returns hrun
  have hclocks : ∀ clock ∈ (oneClock 71).virtualDutClocks,
      report.runtimeClock.minimumSafePeriodBoundNs ≤ clock.2 := by
    simpa [oneClock] using hmin
  have hsafe := buildSystemTiming_safe h
  obtain ⟨hexists, hslack⟩ := hsafe.1 (oneClock 71) rfl hclocks
  obtain ⟨report', h'⟩ := hexists (by simp [oneClock])
  exact ⟨report, report', h, h', (hslack report' h').2, fun p hp => (hsafe.2 hpass p hp).1⟩

end EmuFlow.SystemTiming
