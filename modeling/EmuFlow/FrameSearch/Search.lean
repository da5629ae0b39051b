import Mathlib.Data.PNat.Basic
import EmuFlow.Errors
import EmuFlow.Lib.Bisection
import EmuFlow.Lib.Keyed
import EmuFlow.Lib.SortedSet

/-!
# Frame-search reports

The report of `emuflow/frame_search.py` and `validate_frame_search_report`. A report is a typed
record, so that of the checks those of a field's type and of the key set of the configuration hold
of every one; a frame length is a natural number and a floating-point number is exact.
-/

namespace EmuFlow.FrameSearch

open Check Keyed List

def FRAME_SEARCH_SCHEMA : String := "emuflow.frame-search/v4"

/-- `f"{slots:08d}"`. -/
def paddedSlots (slots : ℕ) : String :=
  String.ofList ((Nat.toDigits 10 slots).leftpad 8 '0')

/-- `f"frame-{slots:08d}"`. -/
def frameName (slots : ℕ) : String := "frame-" ++ paddedSlots slots

def routeDir (slots : ℕ) : String := frameName slots ++ "/system-route"

def tdmDir (slots : ℕ) : String := frameName slots ++ "/tdm"

structure FeasibleEvidence where
  completionSlot : ℤ
  maxTdmRatio : Option ℤ
  maxLinkUtilization : ℚ
  worstNormalizedSlack : Option ℚ
  nominalVirtualFrequencyMhz : ℚ
  estimatedRuntimeSlackNs : Option ℚ
  routeDir : String
  tdmDir : String
  deriving DecidableEq

structure InfeasibleEvidence where
  errorType : String
  reason : String
  deriving DecidableEq

/-- What an attempt has beside its frame length; the constructor is its `status`. -/
inductive Evidence where
  | feasible (evidence : FeasibleEvidence)
  | infeasible (evidence : InfeasibleEvidence)
  deriving DecidableEq

structure Attempt where
  frameSlots : ℕ
  evidence : Evidence
  deriving DecidableEq

/-- `attempt["status"] == "feasible"`. -/
def Attempt.feasible (attempt : Attempt) : Bool :=
  match attempt.evidence with
  | .feasible _ => true
  | .infeasible _ => false

structure Configuration where
  ratioMaxIterations : ℤ
  maxRatio : Option ℤ
  ratioQuantum : ℤ
  postRefinementIterations : ℤ
  slotRefinementIterations : ℤ
  tdmProvider : Option String
  ratioConvergence : ℚ
  simulationFrames : ℤ
  deriving DecidableEq

structure Report where
  schema : String := FRAME_SEARCH_SCHEMA
  status : String := "pass"
  provider : String := "checked-monotone-bisection-v1"
  objective : String := "minimum-feasible-frame-slots"
  maximumFrameSlots : ℕ
  selectedFrameSlots : ℕ
  speedupOverMaximum : ℚ
  evaluatedCandidates : ℕ
  configuration : Configuration
  attempts : List Attempt
  selectedCandidate : String
  deriving DecidableEq

/-- What `validate_frame_search_report` returns. -/
structure Validation where
  status : String := "pass"
  selectedFrameSlots : ℕ
  evaluatedCandidates : ℕ
  speedupOverMaximum : ℚ

/-! ## validation -/

def validateEvidence (slots : ℕ) : Evidence → Result Unit
  | .feasible evidence =>
    raiseIf (evidence.routeDir ≠ routeDir slots ∨ evidence.tdmDir ≠ tdmDir slots ∨
        evidence.completionSlot < 0)
      (ValidationError "frame-search feasible attempt metadata is invalid")
  | .infeasible evidence =>
    raiseIf (evidence.errorType = "" ∨ evidence.reason = "")
      (ValidationError "frame-search infeasible attempt evidence is invalid")

/-- One turn of the loop over the attempts, which builds `by_slots`. -/
def validateAttempt (maximum : ℕ) (bySlots : List Attempt) (attempt : Attempt) :
    Result (List Attempt) := do
  raiseIf (attempt.frameSlots < 2 ∨ maximum < attempt.frameSlots ∨
      attempt.frameSlots ∈ bySlots.map Attempt.frameSlots)
    (ValidationError "frame-search attempt is invalid")
  validateEvidence attempt.frameSlots attempt.evidence
  return bySlots ++ [attempt]

/-- `slots in by_slots` with the given status. -/
def hasAttempt (bySlots : List Attempt) (slots : ℕ) (feasible : Bool) : Bool :=
  match find Attempt.frameSlots bySlots slots with
  | some attempt => attempt.feasible == feasible
  | none => false

def validatePositive (name : String) (value : ℤ) : Result Unit :=
  raiseIf (value ≤ 0) (.validation "frame-search configuration %s is invalid" [name])

def validateConfiguration (configuration : Configuration) : Result Unit := do
  validatePositive "ratio_max_iterations" configuration.ratioMaxIterations
  validatePositive "ratio_quantum" configuration.ratioQuantum
  validatePositive "post_refinement_iterations" configuration.postRefinementIterations
  validatePositive "simulation_frames" configuration.simulationFrames
  raiseIf (configuration.slotRefinementIterations < 0)
    (ValidationError "frame-search configuration slot_refinement_iterations is invalid")
  raiseIf (configuration.tdmProvider = some "")
    (ValidationError "frame-search configuration tdm_provider is invalid")
  raiseIf (∃ ratio ∈ configuration.maxRatio, ratio ≤ 0)
    (ValidationError "frame-search configuration max_ratio is invalid")
  raiseIf (configuration.ratioConvergence ≤ 0)
    (ValidationError "frame-search configuration ratio_convergence is invalid")

def validateFrameSearchReport (report : Report) : Result Validation := do
  raiseIf (report.schema ≠ FRAME_SEARCH_SCHEMA)
    (ValidationError "frame-search schema is invalid")
  raiseIf (report.status ≠ "pass") (ValidationError "frame-search report did not pass")
  let maximum := report.maximumFrameSlots
  let selected := report.selectedFrameSlots
  raiseIf (¬ (2 ≤ selected ∧ selected ≤ maximum) ∨ report.attempts = [])
    (ValidationError "frame-search bounds or attempts are invalid")
  let bySlots ← report.attempts.foldlM (validateAttempt maximum) []
  raiseIf (report.evaluatedCandidates ≠ report.attempts.length)
    (ValidationError "frame-search candidate count is inconsistent")
  raiseIf (hasAttempt bySlots selected true = false)
    (ValidationError "selected frame-search candidate is not feasible")
  raiseIf (hasAttempt bySlots maximum true = false)
    (ValidationError "frame-search maximum was not proven feasible")
  raiseIf (2 < selected ∧ hasAttempt bySlots (selected - 1) false = false)
    (ValidationError "frame-search minimum boundary was not proven infeasible")
  raiseIf (∃ attempt ∈ bySlots, attempt.frameSlots < selected ∧ attempt.feasible)
    (ValidationError "frame-search has a feasible smaller candidate")
  raiseIf (report.selectedCandidate ≠ frameName selected)
    (ValidationError "frame-search selected candidate is inconsistent")
  raiseIf (|report.speedupOverMaximum - (maximum : ℚ) / selected| > 1 / 10 ^ 12)
    (ValidationError "frame-search speedup is inconsistent")
  validateConfiguration report.configuration
  return {
    selectedFrameSlots := selected
    evaluatedCandidates := report.attempts.length
    speedupOverMaximum := report.speedupOverMaximum }

/-- The configuration values the validator accepts. -/
structure Configuration.Valid (configuration : Configuration) : Prop where
  ratioMaxIterations : 0 < configuration.ratioMaxIterations
  ratioQuantum : 0 < configuration.ratioQuantum
  postRefinementIterations : 0 < configuration.postRefinementIterations
  simulationFrames : 0 < configuration.simulationFrames
  slotRefinementIterations : 0 ≤ configuration.slotRefinementIterations
  tdmProvider : configuration.tdmProvider ≠ some ""
  maxRatio : ∀ ratio ∈ configuration.maxRatio, 0 < ratio
  ratioConvergence : 0 < configuration.ratioConvergence

theorem validateConfiguration_eq_ok {configuration : Configuration} :
    validateConfiguration configuration = .ok () ↔ configuration.Valid := by
  unfold validateConfiguration validatePositive
  simp only [raiseIf_bind, raiseIf_eq_ok, not_le, not_lt, not_exists, not_and]
  constructor
  · rintro ⟨h1, h2, h3, h4, h5, h6, h7, h8⟩
    exact ⟨h1, h2, h3, h4, h5, h6, h7, h8⟩
  · rintro ⟨h1, h2, h3, h4, h5, h6, h7, h8⟩
    exact ⟨h1, h2, h3, h4, h5, h6, h7, h8⟩

def Attempt.Evident (attempt : Attempt) : Prop :=
  validateEvidence attempt.frameSlots attempt.evidence = .ok ()

theorem foldlM_validateAttempt {maximum : ℕ} : ∀ {attempts bySlots : List Attempt},
    ((bySlots ++ attempts).map Attempt.frameSlots).Nodup →
    (∀ a ∈ attempts,
      2 ≤ a.frameSlots ∧ a.frameSlots ≤ maximum ∧ a.Evident) →
      attempts.foldlM (validateAttempt maximum) bySlots = .ok (bySlots ++ attempts)
  | [], bySlots, _, _ => by
    rw [append_nil]
    rfl
  | a :: attempts, bySlots, hn, h => by
    obtain ⟨⟨hl, hm, he⟩, hr⟩ := forall_mem_cons.mp h
    rw [← singleton_append, ← append_assoc] at hn ⊢
    have hnw : a.frameSlots ∉ bySlots.map Attempt.frameSlots := by
      rw [map_append] at hn
      exact (nodup_map_snoc.mp (nodup_append.mp hn).1).2
    have ht : validateAttempt maximum bySlots a = .ok (bySlots ++ [a]) := by
      unfold validateAttempt
      rw [raiseIf_bind, bind_eq_ok]
      exact ⟨by rintro (hlt | hlt | hmm) <;> first | omega | exact hnw hmm, (), he, rfl⟩
    rw [singleton_append, foldlM_cons, bind_eq_ok]
    exact ⟨_, ht, foldlM_validateAttempt hn hr⟩

theorem hasAttempt_eq_true {bySlots : List Attempt} {slots : ℕ} {feasible : Bool}
    (hn : (bySlots.map Attempt.frameSlots).Nodup) :
    hasAttempt bySlots slots feasible = true ↔
      ∃ a ∈ bySlots, a.frameSlots = slots ∧ a.feasible = feasible := by
  unfold hasAttempt
  constructor
  · intro h
    cases hf : find Attempt.frameSlots bySlots slots with
    | none => simp [hf] at h
    | some a =>
      simp only [hf, beq_iff_eq] at h
      exact ⟨a, mem_of_find hf, key_of_find hf, h⟩
  · rintro ⟨a, hm, rfl, hfs⟩
    rw [find_of_mem hn hm]
    simpa using hfs

/-!
## The frame-length search

`run_frame_length_search` of `emuflow/frame_search.py`. What Phase 4, Phase 5 and the runtime
estimate make of a frame length is a parameter, an arbitrary function of the length; of the
directories only the guards in front of the search read anything.
-/

open SortedSet Bisection

/-! ## the oracle -/

/-- What the phases report of a length they accept, as `evaluate` reads it. -/
structure Measurement where
  completionSlot : ℕ
  maxTdmRatio : Option ℤ
  maxLinkUtilization : ℚ
  worstNormalizedSlack : Option ℚ
  nominalVirtualFrequencyMhz : ℚ
  /-- `runtime_timing["status"]`. -/
  runtimeStatus : String
  estimatedRuntimeSlackNs : Option ℚ

/-- A caught exception. Each class has a name, and each `raise` of the phases has a text. -/
structure Failure where
  errorType : String
  reason : String
  errorType_ne : errorType ≠ ""
  reason_ne : reason ≠ ""

/-- The providers of a search. `routesQuantum` is `tdm_ratio_quantum` of the constraints in the
`routes.json` of a length, which Phase 4 has checked to be positive. -/
structure Providers where
  phases : ℕ → Except Failure Measurement
  routesQuantum : ℕ → Option ℕ+

def attemptAt (providers : Providers) (frameSlots : ℕ) : Attempt where
  frameSlots := frameSlots
  evidence :=
    match providers.phases frameSlots with
    | .error failure =>
      .infeasible { errorType := failure.errorType, reason := failure.reason }
    | .ok measurement =>
      if measurement.runtimeStatus = "fail" then
        .infeasible {
          errorType := "ValidationError"
          reason := "scheduled path delay exceeds the virtual clock period" }
      else
        .feasible {
          completionSlot := measurement.completionSlot
          maxTdmRatio := measurement.maxTdmRatio
          maxLinkUtilization := measurement.maxLinkUtilization
          worstNormalizedSlack := measurement.worstNormalizedSlack
          nominalVirtualFrequencyMhz := measurement.nominalVirtualFrequencyMhz
          estimatedRuntimeSlackNs := measurement.estimatedRuntimeSlackNs
          routeDir := routeDir frameSlots
          tdmDir := tdmDir frameSlots }

def Feasible (providers : Providers) (frameSlots : ℕ) : Prop :=
  (attemptAt providers frameSlots).feasible = true

instance (providers : Providers) (frameSlots : ℕ) : Decidable (Feasible providers frameSlots) :=
  inferInstanceAs (Decidable (_ = true))

/-! ## the search -/

/-- The inner `evaluate`, with the attempts it has memoised. -/
def evaluate (providers : Providers) (attempts : List Attempt) (frameSlots : ℕ) :
    Bool × List Attempt :=
  match find Attempt.frameSlots attempts frameSlots with
  | some attempt => (attempt.feasible, attempts)
  | none =>
    let attempt := attemptAt providers frameSlots
    (attempt.feasible, attempts ++ [attempt])

/-- `while low < high`. -/
def bisect (providers : Providers) (attempts : List Attempt) (low high : ℕ) :
    ℕ × List Attempt :=
  if low < high then
    let middle := (low + high) / 2
    let answer := evaluate providers attempts middle
    if answer.1 then bisect providers answer.2 low middle
    else bisect providers answer.2 (middle + 1) high
  else (low, attempts)
termination_by high - low

/-- `while chosen > 2 and evaluate(chosen - 1)`. -/
def descend (providers : Providers) (attempts : List Attempt) : ℕ → ℕ × List Attempt
  | 0 => (0, attempts)
  | chosen + 1 =>
    if 2 < chosen + 1 then
      let answer := evaluate providers attempts chosen
      if answer.1 then descend providers answer.2 chosen else (chosen + 1, answer.2)
    else (chosen + 1, attempts)

/-- The descent below the answer of the binary search, for an oracle that is not monotone. -/
def defensiveDescent (providers : Providers) (attempts : List Attempt) (chosen : ℕ) :
    ℕ × List Attempt :=
  if 2 < chosen then
    let answer := evaluate providers attempts (chosen - 1)
    if answer.1 then descend providers answer.2 chosen else (chosen, answer.2)
  else (chosen, attempts)

structure Workspace where
  routeOutputExists : Bool
  tdmOutputExists : Bool
  /-- The entries of `search_root`, none when it does not exist. -/
  searchRootEntries : List String

structure Options where
  tdmProvider : Option String := none
  simulationFrames : ℤ := 16
  ratioMaxIterations : ℤ := 500
  maxRatio : Option ℤ := none
  ratioQuantum : Option ℤ := none
  postRefinementIterations : ℤ := 200
  slotRefinementIterations : ℤ := 0
  ratioConvergence : ℚ := 1 / 10 ^ 9

/-- `configuration` of the report of a search that has chosen a length. -/
def Options.configuration (options : Options) (providers : Providers) (chosen : ℕ) :
    Configuration where
  ratioMaxIterations := options.ratioMaxIterations
  maxRatio := options.maxRatio
  ratioQuantum :=
    options.ratioQuantum.getD (((providers.routesQuantum chosen).map fun q => (q : ℤ)).getD 8)
  postRefinementIterations := options.postRefinementIterations
  slotRefinementIterations := options.slotRefinementIterations
  tdmProvider := options.tdmProvider
  ratioConvergence := options.ratioConvergence
  simulationFrames := options.simulationFrames

def buildReport (providers : Providers) (options : Options) (maxFrameSlots chosen : ℕ)
    (attempts : List Attempt) : Report where
  maximumFrameSlots := maxFrameSlots
  selectedFrameSlots := chosen
  speedupOverMaximum := maxFrameSlots / chosen
  evaluatedCandidates := attempts.length
  configuration := options.configuration providers chosen
  attempts := sortedBy Attempt.frameSlots attempts
  selectedCandidate := frameName chosen

def runFrameLengthSearch (providers : Providers) (options : Options) (workspace : Workspace)
    (maxFrameSlots : ℕ) : Result Report := do
  raiseIf (maxFrameSlots < 2) (ValidationError "frame-search maximum must be at least two")
  raiseIf (workspace.routeOutputExists ∨ workspace.tdmOutputExists)
    (.emuFlow "frame-search canonical route/TDM outputs must not exist" [])
  raiseIf (workspace.searchRootEntries ≠ [])
    (.emuFlow "frame-search output directory must be empty" [])
  let first := evaluate providers [] maxFrameSlots
  raiseIf (first.1 = false)
    (.emuFlow "frame-search upper bound is infeasible; increase --frame-slots" [])
  let low := bisect providers first.2 2 maxFrameSlots
  let chosen := defensiveDescent providers low.2 low.1
  let report := buildReport providers options maxFrameSlots chosen.1 chosen.2
  let _ ← validateFrameSearchReport report
  return report

/-! ## one evaluation -/

variable {providers : Providers} {options : Options} {workspace : Workspace}
  {attempts : List Attempt} {maxFrameSlots low high slots : ℕ}

@[simp] theorem frameSlots_attemptAt : (attemptAt providers slots).frameSlots = slots := rfl

theorem decide_feasible :
    decide (Feasible providers slots) = (attemptAt providers slots).feasible := by
  by_cases h : Feasible providers slots
  · rw [decide_eq_true h, show (attemptAt providers slots).feasible = true from h]
  · rw [decide_eq_false h, Bool.eq_false_iff.mpr h]

theorem evident_attemptAt : (attemptAt providers slots).Evident := by
  unfold Attempt.Evident attemptAt
  cases providers.phases slots with
  | error failure => simp [validateEvidence, failure.errorType_ne, failure.reason_ne]
  | ok measurement =>
    by_cases hf : measurement.runtimeStatus = "fail"
    · simp [hf, validateEvidence]
    · simp [hf, validateEvidence]

/-- The memoised attempts: one for each length that was evaluated, all in range. -/
structure Memo (providers : Providers) (maxFrameSlots : ℕ) (attempts : List Attempt) : Prop where
  nodup : (attempts.map Attempt.frameSlots).Nodup
  attemptAt : ∀ attempt ∈ attempts, attempt = attemptAt providers attempt.frameSlots
  range : ∀ attempt ∈ attempts, 2 ≤ attempt.frameSlots ∧ attempt.frameSlots ≤ maxFrameSlots

def Evaluated (attempts : List Attempt) (slots : ℕ) : Prop :=
  slots ∈ attempts.map Attempt.frameSlots

theorem Memo.nil : Memo providers maxFrameSlots [] := ⟨by simp, by simp, by simp⟩

theorem Memo.mem (h : Memo providers maxFrameSlots attempts) (hs : Evaluated attempts slots) :
    FrameSearch.attemptAt providers slots ∈ attempts := by
  obtain ⟨a, hm, rfl⟩ := mem_map.mp hs
  rw [← h.attemptAt a hm]
  exact hm

theorem Memo.evaluate (h : Memo providers maxFrameSlots attempts) (hl : 2 ≤ slots)
    (hm : slots ≤ maxFrameSlots) :
    ∃ attempts', evaluate providers attempts
      slots = (decide (Feasible providers slots), attempts') ∧
      Memo providers maxFrameSlots attempts' ∧
        ∀ n, Evaluated attempts' n ↔ Ask (Evaluated attempts) slots n := by
  unfold FrameSearch.evaluate
  cases hf : find Attempt.frameSlots attempts slots with
  | some a =>
    have hmm := mem_of_find hf
    have hs := key_of_find hf
    have ha := h.attemptAt a hmm
    rw [hs] at ha
    refine ⟨attempts, by rw [decide_feasible, ← ha], h, fun n => ?_⟩
    constructor
    · exact .inr
    · rintro (rfl | hn)
      · exact mem_map.mpr ⟨a, hmm, hs⟩
      · exact hn
  | none =>
    have hnw : slots ∉ attempts.map Attempt.frameSlots := by
      intro hmm
      obtain ⟨a, ha⟩ := exists_find hmm
      rw [hf] at ha
      cases ha
    refine ⟨attempts ++ [FrameSearch.attemptAt providers slots], ?_, ?_, fun n => ?_⟩
    · rw [decide_feasible]
    · refine ⟨nodup_map_snoc.mpr ⟨h.nodup, hnw⟩, ?_, ?_⟩
      · simpa [or_imp, forall_and] using h.attemptAt
      · simpa [or_imp, forall_and, hl, hm] using h.range
    · simp [Evaluated, Ask, or_comm]

/-! ## the loops -/

/-- A search between two bounds: the attempts it has made, and what they say of the bounds. -/
structure Searching (providers : Providers) (maxFrameSlots : ℕ) (attempts : List Attempt)
    (low high : ℕ) : Prop where
  memo : Memo providers maxFrameSlots attempts
  maximum : Evaluated attempts maxFrameSlots
  high_le : high ≤ maxFrameSlots
  bracket : Bracket (Feasible providers) (Evaluated attempts) 2 low high

theorem Searching.turn (h : Searching providers maxFrameSlots attempts low high)
    (hlt : low < high) : ∃ attempts', FrameSearch.evaluate providers attempts ((low + high) / 2) =
        (decide (Feasible providers ((low + high) / 2)), attempts') ∧
      if Feasible providers ((low + high) / 2) then
        Searching providers maxFrameSlots attempts' low ((low + high) / 2)
      else Searching providers maxFrameSlots attempts' ((low + high) / 2 + 1) high := by
  obtain ⟨hm, hm'⟩ := middle_mem hlt
  have hms := hm'.le.trans h.high_le
  obtain ⟨attempts', he, hmm, ha⟩ :=
    h.memo.evaluate (h.bracket.least_le.trans hm) hms
  have heq : Evaluated attempts' = Ask (Evaluated attempts) ((low + high) / 2) :=
    funext fun n => propext (ha n)
  have hmx : Evaluated attempts' maxFrameSlots := (ha _).mpr (.inr h.maximum)
  refine ⟨attempts', he, ?_⟩
  split_ifs with hf
  · exact ⟨hmm, hmx, hms, heq ▸ h.bracket.lower hm hm' hf⟩
  · exact ⟨hmm, hmx, h.high_le, heq ▸ h.bracket.raise hm hm' hf⟩

theorem Searching.bisect {attempts : List Attempt} {low high : ℕ}
    (h : Searching providers maxFrameSlots attempts low high) :
    ∃ chosen attempts', bisect providers attempts low high = (chosen, attempts') ∧
      Searching providers maxFrameSlots attempts' chosen chosen := by
  rw [FrameSearch.bisect]
  by_cases hlt : low < high
  · obtain ⟨attempts', he, ht⟩ := h.turn hlt
    simp only [if_pos hlt, he]
    have := middle_mem hlt
    by_cases hf : Feasible providers ((low + high) / 2)
    · rw [if_pos hf] at ht
      simpa [hf] using ht.bisect
    · rw [if_neg hf] at ht
      simpa [hf] using ht.bisect
  · have heq : low = high := le_antisymm h.bracket.low_le (not_lt.mp hlt)
    subst heq
    rw [if_neg hlt]
    exact ⟨_, _, rfl, h⟩
termination_by high - low

/-- **Behind a bisection there is nothing to descend to**, whatever the oracle answers: the length
below was evaluated and is infeasible. -/
theorem Searching.descent {chosen : ℕ}
    (h : Searching providers maxFrameSlots attempts chosen chosen) :
    defensiveDescent providers attempts chosen = (chosen, attempts) := by
  unfold defensiveDescent
  by_cases hlt : 2 < chosen
  · obtain ⟨has, hi⟩ := h.bracket.pred_infeasible hlt
    obtain ⟨a, hm, hs⟩ := mem_map.mp has
    have ha : a = attemptAt providers (chosen - 1) := hs ▸ h.memo.attemptAt _ hm
    have hf := find_of_mem h.memo.nodup hm
    rw [hs] at hf
    have han : a.feasible = false := by
      rw [ha]
      simpa [Feasible] using hi
    simp [hlt, evaluate, hf, han]
  · rw [if_neg hlt]

theorem runFrameLengthSearch_bisect (hmax : 2 ≤ maxFrameSlots)
    (hw : workspace = ⟨false, false, []⟩) (hf : Feasible providers maxFrameSlots) :
    ∃ chosen attempts,
      bisect providers [attemptAt providers maxFrameSlots] 2 maxFrameSlots = (chosen, attempts) ∧
      Searching providers maxFrameSlots attempts chosen chosen ∧
      runFrameLengthSearch providers options workspace maxFrameSlots = (validateFrameSearchReport
          (buildReport providers options maxFrameSlots chosen attempts)).map
            fun _ => buildReport providers options maxFrameSlots chosen attempts := by
  obtain ⟨first, he, hm, ha⟩ := (@Memo.nil providers maxFrameSlots).evaluate hmax le_rfl
  have hfr : first = [attemptAt providers maxFrameSlots] := (Prod.mk.inj he).2.symm
  have heq : Evaluated first = Ask (fun _ => False) maxFrameSlots :=
    funext fun n => propext (by simpa [Evaluated, Ask] using ha n)
  have hst : Searching providers maxFrameSlots first 2 maxFrameSlots :=
    ⟨hm, (ha _).mpr (.inl rfl), le_rfl, heq ▸ Bracket.start hmax hf⟩
  obtain ⟨low, attempts, hb, hs⟩ := hst.bisect
  refine ⟨low, attempts, hfr ▸ hb, hs, ?_⟩
  subst hw
  unfold runFrameLengthSearch
  have hn : ¬ maxFrameSlots < 2 := not_lt.mpr hmax
  simp only [raiseIf, hn, he, hf, hb, hs.descent]
  cases validateFrameSearchReport (buildReport providers options maxFrameSlots low attempts) <;> rfl

/-- **What a search that starts has found**: a closed bracket, from which its report is built. -/
theorem runFrameLengthSearch_eq (hmax : 2 ≤ maxFrameSlots)
    (hw : workspace = ⟨false, false, []⟩) (hf : Feasible providers maxFrameSlots) :
    ∃ chosen attempts, Searching providers maxFrameSlots attempts chosen chosen ∧
      runFrameLengthSearch providers options workspace maxFrameSlots = (validateFrameSearchReport
          (buildReport providers options maxFrameSlots chosen attempts)).map
            fun _ => buildReport providers options maxFrameSlots chosen attempts :=
  let ⟨chosen, attempts, _, h⟩ := runFrameLengthSearch_bisect hmax hw hf
  ⟨chosen, attempts, h⟩

end EmuFlow.FrameSearch
