import EmuFlow.FrameSearch.Search
import Mathlib.Data.Nat.Log

/-!
# What a frame-length search returns

The report is about a length on the boundary between the answers. It passes its validator exactly
when the options the search has only passed on are ones the validator accepts, which the search does
not ask before it runs.
-/

namespace EmuFlow.FrameSearch

open Check SortedSet Bisection

variable {providers : Providers} {options : Options} {workspace : Workspace}
  {attempts : List Attempt} {maxFrameSlots chosen : ℕ}

structure Options.Accepted (options : Options) : Prop where
  ratioMaxIterations : 0 < options.ratioMaxIterations
  ratioQuantum : ∀ quantum ∈ options.ratioQuantum, 0 < quantum
  postRefinementIterations : 0 < options.postRefinementIterations
  simulationFrames : 0 < options.simulationFrames
  slotRefinementIterations : 0 ≤ options.slotRefinementIterations
  tdmProvider : options.tdmProvider ≠ some ""
  maxRatio : ∀ ratio ∈ options.maxRatio, 0 < ratio
  ratioConvergence : 0 < options.ratioConvergence

theorem valid_configuration :
    (options.configuration providers chosen).Valid ↔ options.Accepted := by
  have hr : 0 < ((providers.routesQuantum chosen).map fun q => (q : ℤ)).getD 8 := by
    cases providers.routesQuantum chosen with
    | none => simp
    | some quantum => simp
  have hq : 0 < (options.configuration providers chosen).ratioQuantum ↔
      ∀ quantum ∈ options.ratioQuantum, 0 < quantum := by
    unfold Options.configuration
    cases options.ratioQuantum with
    | none => simpa using hr
    | some quantum => simp
  constructor
  · intro h
    exact ⟨h.ratioMaxIterations, hq.mp h.ratioQuantum, h.postRefinementIterations,
      h.simulationFrames, h.slotRefinementIterations, h.tdmProvider, h.maxRatio,
      h.ratioConvergence⟩
  · intro h
    exact ⟨h.ratioMaxIterations, hq.mpr h.ratioQuantum, h.postRefinementIterations,
      h.simulationFrames, h.slotRefinementIterations, h.tdmProvider, h.maxRatio,
      h.ratioConvergence⟩

theorem hasAttempt_sortedBy (hm : Memo providers maxFrameSlots attempts) {slots : ℕ}
    (hs : Evaluated attempts slots) :
    hasAttempt (sortedBy Attempt.frameSlots attempts) slots (decide (Feasible providers slots)) =
      true := by
  have hn : ((sortedBy Attempt.frameSlots attempts).map Attempt.frameSlots).Nodup :=
    ((sortedBy_perm _ _).map _).nodup_iff.mpr hm.nodup
  rw [hasAttempt_eq_true hn]
  exact ⟨_, mem_sortedBy.mpr (hm.mem hs), frameSlots_attemptAt, decide_feasible.symm⟩

/-- **Every check of the validator but those of the configuration holds of the report of a closed
search.** -/
theorem Searching.validate (h : Searching providers maxFrameSlots attempts chosen chosen)
    (hmx : Feasible providers maxFrameSlots) {validation : Validation} :
    validateFrameSearchReport (buildReport providers options maxFrameSlots chosen attempts) =
        .ok validation ↔
      options.Accepted ∧ validation = {
        selectedFrameSlots := chosen
        evaluatedCandidates := attempts.length
        speedupOverMaximum := maxFrameSlots / chosen } := by
  have hfd : (sortedBy Attempt.frameSlots attempts).foldlM (validateAttempt maxFrameSlots) [] =
      .ok (sortedBy Attempt.frameSlots attempts) := by
    refine @foldlM_validateAttempt maxFrameSlots _ [] ?_ ?_
    · exact ((sortedBy_perm _ _).map _).nodup_iff.mpr h.memo.nodup
    · intro a hat
      rw [mem_sortedBy] at hat
      obtain ⟨hls, hms⟩ := h.memo.range a hat
      refine ⟨hls, hms, ?_⟩
      rw [h.memo.attemptAt a hat]
      exact evident_attemptAt
  have hch := h.bracket.high_feasible
  have hsl := hasAttempt_sortedBy h.memo h.bracket.high_asked
  rw [decide_eq_true hch] at hsl
  have hlr := hasAttempt_sortedBy h.memo h.maximum
  rw [decide_eq_true hmx] at hlr
  have hbn : ¬ (2 < chosen ∧
      hasAttempt (sortedBy Attempt.frameSlots attempts) (chosen - 1) false = false) := by
    rintro ⟨hlt, hfl⟩
    obtain ⟨has, hin⟩ := h.bracket.pred_infeasible hlt
    have hpr := hasAttempt_sortedBy h.memo has
    rw [decide_eq_false hin, hfl] at hpr
    cases hpr
  have hsm : ¬ ∃ a ∈ sortedBy Attempt.frameSlots attempts,
      a.frameSlots < chosen ∧ a.feasible = true := by
    rintro ⟨a, hat, hlt, hfs⟩
    rw [mem_sortedBy] at hat
    refine h.bracket.infeasible _ (List.mem_map_of_mem hat) hlt ?_
    rw [h.memo.attemptAt a hat] at hfs
    exact hfs
  have hne : attempts ≠ [] := by
    rintro rfl
    simpa [Evaluated] using h.maximum
  have hbd : ¬ (¬ (2 ≤ chosen ∧ chosen ≤ maxFrameSlots) ∨
      sortedBy Attempt.frameSlots attempts = []) := by
    rintro (hot | hnl)
    · exact hot ⟨h.bracket.least_le, h.high_le⟩
    · have hln := @length_sortedBy _ _ _ Attempt.frameSlots attempts
      rw [hnl] at hln
      exact hne (List.length_eq_zero_iff.mp hln.symm)
  have hct : ¬ attempts.length ≠ (sortedBy Attempt.frameSlots attempts).length := by simp
  have hsp : ¬ |(maxFrameSlots / chosen : ℚ) - maxFrameSlots / chosen| > 1 / 10 ^ 12 := by
    rw [sub_self, abs_zero, not_lt]
    positivity
  have htr : ∀ {b : Bool}, b = true → ¬ b = false := fun h => by simp [h]
  constructor
  · intro h
    obtain ⟨-, h⟩ := raiseIf_bind.mp h
    obtain ⟨-, h⟩ := raiseIf_bind.mp h
    obtain ⟨-, h⟩ := raiseIf_bind.mp h
    obtain ⟨bySlots, -, h⟩ := bind_eq_ok.mp h
    obtain ⟨-, h⟩ := raiseIf_bind.mp h
    obtain ⟨-, h⟩ := raiseIf_bind.mp h
    obtain ⟨-, h⟩ := raiseIf_bind.mp h
    obtain ⟨-, h⟩ := raiseIf_bind.mp h
    obtain ⟨-, h⟩ := raiseIf_bind.mp h
    obtain ⟨-, h⟩ := raiseIf_bind.mp h
    obtain ⟨-, h⟩ := raiseIf_bind.mp h
    obtain ⟨_, hcn, h⟩ := bind_eq_ok.mp h
    refine ⟨valid_configuration.mp (validateConfiguration_eq_ok.mp hcn), ?_⟩
    rw [← Except.ok.inj h]
    simp [buildReport]
  · rintro ⟨hac, rfl⟩
    refine raiseIf_bind.mpr ⟨not_not.mpr rfl, raiseIf_bind.mpr ⟨not_not.mpr rfl,
      raiseIf_bind.mpr ⟨hbd, bind_eq_ok.mpr ⟨_, hfd, ?_⟩⟩⟩⟩
    refine raiseIf_bind.mpr ⟨hct, raiseIf_bind.mpr ⟨htr hsl,
      raiseIf_bind.mpr ⟨htr hlr, raiseIf_bind.mpr ⟨hbn,
        raiseIf_bind.mpr ⟨hsm, ?_⟩⟩⟩⟩⟩
    refine raiseIf_bind.mpr ⟨not_not.mpr rfl, raiseIf_bind.mpr ⟨hsp, ?_⟩⟩
    refine bind_eq_ok.mpr ⟨(), ?_, ?_⟩
    · exact validateConfiguration_eq_ok.mpr (valid_configuration.mpr hac)
    · simp [buildReport, pure, Except.pure]

/-! ## the length found -/

def MonotoneOracle (providers : Providers) : Prop :=
  ∀ m n, 2 ≤ m → m ≤ n → Feasible providers m → Feasible providers n

/-- A report of a minimum: its length was evaluated feasible, with an infeasible one below it if
there is one, and no smaller length that was evaluated is feasible. -/
structure ReportsMinimum (providers : Providers) (maxFrameSlots : ℕ) (report : Report) :
    Prop where
  answers : ∀ attempt ∈ report.attempts, attempt = attemptAt providers attempt.frameSlots
  range : 2 ≤ report.selectedFrameSlots ∧ report.selectedFrameSlots ≤ maxFrameSlots
  selected : ∃ attempt ∈ report.attempts,
    attempt.frameSlots = report.selectedFrameSlots ∧ attempt.feasible = true
  smaller : ∀ attempt ∈ report.attempts,
    attempt.frameSlots < report.selectedFrameSlots → attempt.feasible = false
  boundary : 2 < report.selectedFrameSlots → ∃ attempt ∈ report.attempts,
    attempt.frameSlots = report.selectedFrameSlots - 1 ∧ attempt.feasible = false
  least : MonotoneOracle providers →
    ∀ slots, 2 ≤ slots → Feasible providers slots → report.selectedFrameSlots ≤ slots

theorem Searching.reportsMinimum (h : Searching providers maxFrameSlots attempts chosen chosen) :
    ReportsMinimum providers maxFrameSlots
      (buildReport providers options maxFrameSlots chosen attempts) where
  answers attempt ha := h.memo.attemptAt attempt (mem_sortedBy.mp ha)
  range := ⟨h.bracket.least_le, h.high_le⟩
  selected := ⟨_, mem_sortedBy.mpr (h.memo.mem h.bracket.high_asked), rfl, h.bracket.high_feasible⟩
  smaller attempt ha hlt := by
    have hmm := mem_sortedBy.mp ha
    have hi := h.bracket.infeasible _ (List.mem_map_of_mem hmm) hlt
    rw [h.memo.attemptAt attempt hmm]
    exact Bool.eq_false_iff.mpr hi
  boundary hlt := by
    obtain ⟨has, hi⟩ := h.bracket.pred_infeasible hlt
    exact ⟨_, mem_sortedBy.mpr (h.memo.mem has), rfl, Bool.eq_false_iff.mpr hi⟩
  least hm slots hs hf := h.bracket.least_feasible hm hs hf

/-- **A search whose upper bound is feasible ends; it returns the report of a minimum, which passes
the validator, exactly when the validator accepts its options.** -/
theorem frameSearch_returns_iff (providers : Providers) (options : Options) (workspace : Workspace)
    (maxFrameSlots : ℕ) (hmax : 2 ≤ maxFrameSlots) (hworkspace : workspace = ⟨false, false, []⟩)
    (hfeasible : Feasible providers maxFrameSlots) :
    (∃ report, runFrameLengthSearch providers options workspace maxFrameSlots = .ok report ∧
      ReportsMinimum providers maxFrameSlots report ∧
        ∃ validation, validateFrameSearchReport report = .ok validation) ↔ options.Accepted := by
  obtain ⟨chosen, attempts, hsearching, hrun⟩ :=
    @runFrameLengthSearch_eq providers options workspace maxFrameSlots hmax hworkspace hfeasible
  have hvalidate := fun validation =>
    @Searching.validate providers options attempts maxFrameSlots chosen hsearching
      hfeasible validation
  constructor
  · rintro ⟨report, hreport, -, validation, hvalid⟩
    rw [hrun] at hreport
    cases hresult : validateFrameSearchReport
        (buildReport providers options maxFrameSlots chosen attempts) with
    | error e =>
      rw [hresult] at hreport
      cases hreport
    | ok validation => exact ((hvalidate validation).mp hresult).1
  · intro haccepted
    have hvalid := (hvalidate _).mpr ⟨haccepted, rfl⟩
    refine ⟨_, ?_, hsearching.reportsMinimum, _, hvalid⟩
    rw [hrun, hvalid]
    rfl

def fromFour : Providers where
  phases slots :=
    if slots < 4 then
      .error ⟨"TDMScheduleInfeasibleError", "no schedule", by decide, by decide⟩
    else
      .ok {
        completionSlot := 1
        maxTdmRatio := none
        maxLinkUtilization := 1 / 2
        worstNormalizedSlack := none
        nominalVirtualFrequencyMhz := 10
        runtimeStatus := "pass"
        estimatedRuntimeSlackNs := none }
  routesQuantum _ := none

theorem frameSearch_returns_fromFour :
    ∃ report, runFrameLengthSearch fromFour {} ⟨false, false, []⟩ 8 = .ok report ∧
      ReportsMinimum fromFour 8 report ∧
        ∃ validation, validateFrameSearchReport report = .ok validation :=
  (frameSearch_returns_iff fromFour {} ⟨false, false, []⟩ 8 (by decide) rfl (by decide)).mpr
    ⟨by decide, by simp, by decide, by decide, by decide, by simp, by simp, by norm_num⟩

/-- Without refinement after the ratios the search runs to its end and raises there. -/
theorem report_rejected_without_refinement : Feasible fromFour 8 ∧
      runFrameLengthSearch fromFour { postRefinementIterations := 0 } ⟨false, false, []⟩ 8 =
        .error (.validation "frame-search configuration %s is invalid"
          ["post_refinement_iterations"]) := by
  decide +kernel

theorem length_evaluate (slots : ℕ) :
    (evaluate providers attempts slots).2.length ≤ attempts.length + 1 := by
  unfold evaluate
  split <;> simp

/-- Each turn of a bisection halves what is left of its range. -/
theorem length_bisect (turns : ℕ) : ∀ {attempts : List Attempt} {low high : ℕ},
    high - low < 2 ^ turns →
      (bisect providers attempts low high).2.length ≤ attempts.length + turns := by
  induction turns with
  | zero =>
    intro attempts low high hr
    have hc : ¬ low < high := by omega
    rw [bisect, if_neg hc]
    exact le_rfl
  | succ turns ih =>
    intro attempts low high hr
    rw [bisect]
    have ho := @length_evaluate providers attempts ((low + high) / 2)
    split_ifs with hlt
    · dsimp only
      split_ifs with ha
      · have hl := @ih (evaluate providers attempts ((low + high) / 2)).2 low
          ((low + high) / 2) (by omega)
        omega
      · have hrs := @ih (evaluate providers attempts ((low + high) / 2)).2
          ((low + high) / 2 + 1) high (by omega)
        omega
    · exact Nat.le_add_right _ _

/-- **A search asks about few lengths**: each of them once, and of `n` lengths no more than one and
the logarithm of `n`. -/
theorem frameSearch_evaluations {report : Report}
    (h : runFrameLengthSearch providers options workspace maxFrameSlots = .ok report) :
    report.evaluatedCandidates = report.attempts.length ∧
      (report.attempts.map Attempt.frameSlots).Nodup ∧
      (∀ attempt ∈ report.attempts, attempt = attemptAt providers attempt.frameSlots ∧
        2 ≤ attempt.frameSlots ∧ attempt.frameSlots ≤ maxFrameSlots) ∧
      report.attempts.length ≤ Nat.clog 2 (maxFrameSlots - 1) + 1 := by
  obtain ⟨hmax, hstart⟩ := raiseIf_bind.mp h
  obtain ⟨houtputs, hstart⟩ := raiseIf_bind.mp hstart
  obtain ⟨hempty, hstart⟩ := raiseIf_bind.mp hstart
  obtain ⟨hfeasible, -⟩ := raiseIf_bind.mp hstart
  have hworkspace : workspace = ⟨false, false, []⟩ := by
    obtain ⟨routeOutputExists, tdmOutputExists, searchRootEntries⟩ := workspace
    simp_all
  obtain ⟨chosen, attempts, hbisect, hsearching, hrun⟩ := @runFrameLengthSearch_bisect providers
    options workspace maxFrameSlots (not_lt.mp hmax) hworkspace
    (Bool.eq_true_of_not_eq_false hfeasible)
  have hreport : report = buildReport providers options maxFrameSlots chosen attempts := by
    rw [hrun] at h
    cases hvalid : validateFrameSearchReport
        (buildReport providers options maxFrameSlots chosen attempts) with
    | error e =>
      rw [hvalid] at h
      cases h
    | ok validation =>
      rw [hvalid] at h
      exact (Except.ok.inj h).symm
  have hlength := @length_bisect providers _ [attemptAt providers maxFrameSlots] _ _
    (lt_of_lt_of_le (show maxFrameSlots - 2 < maxFrameSlots - 1 by omega)
      (Nat.le_pow_clog one_lt_two _))
  rw [hbisect, List.length_singleton] at hlength
  dsimp only at hlength
  subst hreport
  refine ⟨by simp [buildReport], ?_, fun attempt hattempt => ?_, ?_⟩
  · exact ((sortedBy_perm _ _).map _).nodup_iff.mpr hsearching.memo.nodup
  · have hmem := mem_sortedBy.mp hattempt
    exact ⟨hsearching.memo.attemptAt attempt hmem, hsearching.memo.range attempt hmem⟩
  · rw [buildReport, length_sortedBy]
    omega

theorem frameSearch_evaluations_fromFour : ∃ report,
    runFrameLengthSearch fromFour {} ⟨false, false, []⟩ 8 = .ok report ∧
      report.evaluatedCandidates = report.attempts.length ∧
      (report.attempts.map Attempt.frameSlots).Nodup ∧
      (∀ attempt ∈ report.attempts, attempt = attemptAt fromFour attempt.frameSlots ∧
        2 ≤ attempt.frameSlots ∧ attempt.frameSlots ≤ 8) ∧
      report.attempts.length ≤ Nat.clog 2 (8 - 1) + 1 := by
  obtain ⟨report, hreport⟩ := exists_of_isOk
    (show (runFrameLengthSearch fromFour {} ⟨false, false, []⟩ 8).isOk = true by decide +kernel)
  exact ⟨report, hreport, frameSearch_evaluations hreport⟩

end EmuFlow.FrameSearch
