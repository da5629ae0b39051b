import EmuFlow.HopRefiner.Fallback

/-!
# Hop-limit refinement: safety of a run

`refine` keeps the fixed clusters and the bounds whatever it does. The objective it carries along
is the one of the current assignment throughout a run exactly when no exchange is made that leaves
fewer parts in use than required; then the required parts stay in use and the result is not worse
than the start. The sums of the input are taken to be exact.
-/

namespace EmuFlow.HopRefiner

variable {numParts n dims : ℕ}
variable {input : Input numParts n dims} {k reach : ℤ}

inductive RoundStart (input : Input numParts n dims) :
    ℕ → Progress numParts n dims → Prop
  | first (h : scaleGuard input = false) : RoundStart input 32 (Progress.initial input)
  | next {rounds : ℕ} {r : Progress numParts n dims}
      (h : RoundStart input (rounds + 1) r) (hactive : r.active = true)
      (hbetter : lessObjective (runPass input n r.begin).best.objective
        r.incumbent = true) :
      RoundStart input rounds (r.commit (runPass input n r.begin))

inductive Tentative (input : Input numParts n dims) :
    ℕ → Pass numParts n dims → Prop
  | start {rounds : ℕ} {r : Progress numParts n dims}
      (h : RoundStart input (rounds + 1) r) (hactive : r.active = true) :
      Tentative input n r.begin
  | step {steps : ℕ} {s s' : Pass numParts n dims}
      (h : Tentative input (steps + 1) s) (hopen : s.working.isFeasible = false)
      (hstep : step input s = some s') : Tentative input steps s'

/-- Every exchange the run makes leaves enough parts in use. -/
def ExchangesKeepUsedParts (input : Input numParts n dims) : Prop :=
  ∀ steps s move, Tentative input (steps + 1) s → s.working.isFeasible = false →
    selectMove input s = some move → KeepsUsedParts input s move

def Exact (input : Input numParts n dims)
    (s : Pass numParts n dims) : Prop :=
  s.working = totalObjective input s.placement.assignment

theorem runPass_spec {P : ℕ → Pass numParts n dims → Prop}
    (hstep : ∀ steps s s', P (steps + 1) s → s.working.isFeasible = false →
      step input s = some s' → P steps s') :
    ∀ (steps : ℕ) (s : Pass numParts n dims), P steps s →
      s.working.isFeasible = false → ∃ left, P left (runPass input steps s)
  | 0, s, h, _ => ⟨0, h⟩
  | steps + 1, s, h, hopen => by
    cases hn : step input s with
    | none =>
      refine ⟨steps + 1, ?_⟩
      rw [runPass, hn]
      exact h
    | some s' =>
      have h' := hstep steps s s' h hopen hn
      rw [runPass, hn]
      dsimp only
      cases hf : s'.working.isFeasible with
      | true => exact ⟨steps, by rw [if_pos rfl]; exact h'⟩
      | false =>
        rw [if_neg Bool.false_ne_true]
        exact runPass_spec hstep steps s' h' hf

theorem runRounds_spec
    {P : Placement numParts n dims → Objective → Prop}
    (hr : ∀ rounds (r : Progress numParts n dims),
      RoundStart input (rounds + 1) r → r.active = true → P r.placement r.incumbent →
      lessObjective (runPass input n r.begin).best.objective r.incumbent = true →
      P (runPass input n r.begin).best.placement (runPass input n r.begin).best.objective) :
    ∀ {rounds : ℕ} {r : Progress numParts n dims}, RoundStart input rounds r →
      P r.placement r.incumbent →
      P (runRounds input rounds r).placement (runRounds input rounds r).incumbent
  | 0, _, _, h => h
  | rounds + 1, r, hs, h => by
    rw [runRounds]
    by_cases hactive : r.active = true
    · rw [if_pos hactive]
      by_cases hbetter : lessObjective (runPass input n r.begin).best.objective r.incumbent = true
      · dsimp only
        rw [if_pos hbetter]
        exact runRounds_spec hr (.next hs hactive hbetter)
          (hr rounds r hs hactive h hbetter)
      · dsimp only
        rw [if_neg hbetter]
        exact h
    · rw [if_neg hactive]
      exact h

variable {r : Progress numParts n dims}

theorem begin_open (h : r.active = true) : r.begin.working.isFeasible = false := by
  simp only [Progress.active, Bool.or_eq_true, decide_eq_true_eq] at h
  rw [Progress.begin, Objective.isFeasible, Bool.and_eq_false_iff, decide_eq_false_iff_not,
    decide_eq_false_iff_not]
  dsimp only
  omega

theorem step_cases {s s' : Pass numParts n dims} (h : step input s = some s') :
    ∃ move, selectMove input s = some move ∧ s' = s.accept input move := by
  obtain ⟨move, hm, rfl⟩ := Option.map_eq_some_iff.mp h
  exact ⟨move, hm, rfl⟩

theorem accept_best_cases (input : Input numParts n dims) (s : Pass numParts n dims)
    (move : Move numParts n) :
    (s.accept input move).best = s.best ∨
      ((s.accept input move).best.placement = move.apply input s.placement ∧
        (s.accept input move).best.objective = move.objective ∧
        move.objective.usedPartDeficit = 0) := by
  simp only [Pass.accept, Best.update]
  split_ifs with h
  · rw [Bool.and_eq_true, decide_eq_true_eq] at h
    exact .inr ⟨rfl, rfl, h.1⟩
  · exact .inl rfl

def PassSound (input : Input numParts n dims)
    (s : Pass numParts n dims) : Prop :=
  Sound input s.placement ∧ Sound input s.best.placement

section constraints

variable (hexact : SumsExact input k reach)

include hexact

theorem PassSound.step {s s' : Pass numParts n dims}
    (h : PassSound input s) (hstep : step input s = some s') : PassSound input s' := by
  obtain ⟨move, hs, rfl⟩ := step_cases hstep
  have ha : Sound input (move.apply input s.placement) :=
    apply_sound hexact h.1 (mem_of_selectMove hs)
  refine ⟨ha, ?_⟩
  rcases accept_best_cases input s move with hsm | ⟨hp, -, -⟩
  · rw [hsm]
    exact h.2
  · rw [hp]
    exact ha

theorem runPass_sound (h : Sound input r.placement) (hactive : r.active = true) :
    Sound input (runPass input n r.begin).best.placement := by
  obtain ⟨-, -, hb⟩ := runPass_spec (P := fun _ s => PassSound input s)
    (fun _ s s' hs _ hstep => hs.step hexact hstep) n r.begin ⟨h, h⟩
    (begin_open hactive)
  exact hb

theorem roundStart_sound (hinit : Placed input (initialAssignment input)) {rounds : ℕ}
    (h : RoundStart input rounds r) :
    Sound input r.placement := by
  induction h with
  | first => exact Sound.ofAssignment hinit
  | next _ hactive _ ih => exact runPass_sound hexact ih hactive

theorem tentative_sound (hinit : Placed input (initialAssignment input)) {steps : ℕ}
    {s : Pass numParts n dims} (h : Tentative input steps s) :
    PassSound input s := by
  induction h with
  | start hr _ =>
    exact ⟨roundStart_sound hexact hinit hr, roundStart_sound hexact hinit hr⟩
  | step _ _ hstep ih => exact ih.step hexact hstep

end constraints

/-! ## the objective carried along -/

structure Settled (input : Input numParts n dims)
    (placement : Placement numParts n dims) (value : Objective) : Prop where
  exact : value = totalObjective input placement.assignment
  deficit : value.usedPartDeficit = 0

def PassExact (input : Input numParts n dims)
    (s : Pass numParts n dims) : Prop :=
  Exact input s ∧ Settled input s.best.placement s.best.objective

theorem PassExact.step (hexact : SumsExact input k reach) {s s' : Pass numParts n dims}
    (h : PassExact input s)
    (hsn : PassSound input s)
    (hkeeps : ∀ move, selectMove input s = some move → KeepsUsedParts input s move)
    (hstep : step input s = some s') : PassExact input s' := by
  obtain ⟨move, hs, rfl⟩ := step_cases hstep
  have hm : move.objective = totalObjective input (move.apply input s.placement).assignment :=
    (apply_exact_iff hexact hsn.1 h.1 (mem_of_selectMove hs)).mpr (hkeeps move hs)
  refine ⟨hm, ?_⟩
  rcases accept_best_cases input s move with
    hsm | ⟨hp, ho, hd⟩
  · rw [hsm]
    exact h.2
  · rw [hp, ho]
    exact ⟨hm, hd⟩

section exact

variable (hexact : SumsExact input k reach) (hinit : Placed input (initialAssignment input))
  (hused : input.minUsedParts ≤ Reassign.used (partCounts (initialAssignment input)))
  (hkeeps : ExchangesKeepUsedParts input)

include hexact hinit hkeeps

theorem runPass_exact {rounds : ℕ} {r : Progress numParts n dims}
    (hst : RoundStart input (rounds + 1) r) (hactive : r.active = true)
    (h : Settled input r.placement r.incumbent) :
    Settled input (runPass input n r.begin).best.placement
      (runPass input n r.begin).best.objective := by
  obtain ⟨-, -, -, hb⟩ := runPass_spec
    (P := fun steps s => Tentative input steps s ∧ PassExact input s)
    (fun steps s s' hs hopen hstep => ⟨hs.1.step hopen hstep,
      hs.2.step hexact (tentative_sound hexact hinit hs.1)
        (fun move => hkeeps steps s move hs.1 hopen) hstep⟩)
    n r.begin ⟨.start hst hactive, h.exact, h⟩
    (begin_open hactive)
  exact hb

omit hexact hinit hkeeps in
include hused in
theorem initial_settled :
    Settled input (Progress.initial input).placement (Progress.initial input).incumbent where
  exact := rfl
  deficit := by
    show (totalObjective input _).usedPartDeficit = 0
    rw [totalObjective_deficit, deficit_eq_zero]
    exact hused

include hused

theorem roundStart_settled {rounds : ℕ} {r : Progress numParts n dims}
    (h : RoundStart input rounds r) : Settled input r.placement r.incumbent := by
  induction h with
  | first => exact initial_settled hused
  | next hs hactive _ ih => exact runPass_exact hexact hinit hkeeps hs hactive ih

theorem tentative_exact {steps : ℕ} {s : Pass numParts n dims}
    (h : Tentative input steps s) : PassExact input s := by
  induction h with
  | start hr _ =>
    have hs := roundStart_settled hexact hinit hused hkeeps hr
    exact ⟨hs.exact, hs⟩
  | step hp hopen hstep ih =>
    exact ih.step hexact (tentative_sound hexact hinit hp)
      (fun move => hkeeps _ _ move hp hopen) hstep

end exact

/-! ## the result -/

theorem lessObjective_irrefl (value : Objective) : lessObjective value value = false := by
  have hk : ¬kEps < 0 := by decide +kernel
  have hz : Binary64.round 0 = 0 := Binary64.roundTo_zero
  simp [lessObjective, Binary64.sub, hz, hk]

theorem violations_le {a b : Objective} (h : lessObjective a b = false) :
    b.violations ≤ a.violations := by
  by_contra hlt
  rw [lessObjective, if_pos (by omega), decide_eq_false_iff_not] at h
  omega

theorem refine_cases (input : Input numParts n dims) :
    (scaleGuard input = true ∧ (refine input).assignment = initialAssignment input ∧
        (refine input).final = totalObjective input (initialAssignment input)) ∨
      (scaleGuard input = false ∧ (((refine input).assignment =
              (runRounds input 32 (Progress.initial input)).placement.assignment ∧
            (refine input).final = totalObjective input
              (runRounds input 32 (Progress.initial input)).placement.assignment) ∨
          ∃ a objective, exactFeasibleFallback input = some (a, objective) ∧
            (refine input).assignment = a ∧ (refine input).final = objective ∧
            ((totalObjective input (runRounds input 32
                (Progress.initial input)).placement.assignment).violations > 0 ∨
              (totalObjective input (runRounds input 32
                (Progress.initial input)).placement.assignment).usedPartDeficit > 0))) := by
  cases hg : scaleGuard input with
  | true => exact .inl ⟨rfl, by simp [refine, hg], by simp [refine, hg]⟩
  | false =>
    refine .inr ⟨rfl, ?_⟩
    have hr : refine input = finish input (runRounds input 32 (Progress.initial input)) := by
      rw [refine, hg, if_neg Bool.false_ne_true]
    rw [hr, finish]
    dsimp only
    split_ifs with hv
    · rw [Bool.or_eq_true, decide_eq_true_eq, decide_eq_true_eq] at hv
      cases hf : exactFeasibleFallback input with
      | none => exact .inl ⟨rfl, rfl⟩
      | some found => exact .inr ⟨found.1, found.2, rfl, rfl, rfl, hv⟩
    · exact .inl ⟨rfl, rfl⟩

section result

variable (hexact : SumsExact input k reach)

include hexact

theorem refine_final : (refine input).final = totalObjective input (refine input).assignment := by
  rcases refine_cases input with ⟨-, ha, hf⟩ | ⟨-, ⟨ha, hf⟩ |
    ⟨_, objective, hfn, ha, hf, -⟩⟩
  · rw [hf, ha]
  · rw [hf, ha]
  · rw [hf, ha, (exactFeasibleFallback_feasible hexact _ objective hfn).objective_eq]

variable (hlegal : Legal input (initialAssignment input)) (hkeeps : ExchangesKeepUsedParts input)

include hlegal hkeeps

theorem runRounds_settled (hg : scaleGuard input = false) :
    Sound input (runRounds input 32 (Progress.initial input)).placement ∧
      Settled input (runRounds input 32 (Progress.initial input)).placement
        (runRounds input 32 (Progress.initial input)).incumbent := by
  refine runRounds_spec (P := fun placement value => Sound input placement ∧
    Settled input placement value) ?_ (.first hg) ⟨Sound.ofAssignment hlegal.toPlaced,
      initial_settled hlegal.used⟩
  intro rounds r hs hactive h _
  exact ⟨runPass_sound hexact h.1 hactive,
    runPass_exact hexact hlegal.toPlaced hkeeps hs hactive h.2⟩

theorem runRounds_legal (hg : scaleGuard input = false) :
    Legal input (runRounds input 32 (Progress.initial input)).placement.assignment := by
  obtain ⟨hsn, hs⟩ := runRounds_settled hexact hlegal hkeeps hg
  refine { toPlaced := hsn.placed, used := ?_ }
  rw [← deficit_eq_zero, ← totalObjective_deficit, ← hs.exact]
  exact hs.deficit

theorem runRounds_not_worse (hg : scaleGuard input = false) :
    lessObjective (totalObjective input (initialAssignment input))
      (runRounds input 32 (Progress.initial input)).incumbent = false := by
  let initial := totalObjective input (initialAssignment input)
  have hr : Settled input (runRounds input 32 (Progress.initial input)).placement
      (runRounds input 32 (Progress.initial input)).incumbent ∧
      lessObjective initial (runRounds input 32 (Progress.initial input)).incumbent = false := by
    refine runRounds_spec (P := fun placement value => Settled input placement value ∧
      lessObjective initial value = false) ?_ (.first hg)
      ⟨initial_settled hlegal.used, lessObjective_irrefl _⟩
    intro rounds r hs hactive h hbetter
    have hn := runPass_exact hexact hlegal.toPlaced hkeeps hs hactive h.1
    refine ⟨hn, ?_⟩
    -- worse than the initial one would be better than the incumbent at the start of the round
    by_contra hw
    rw [Bool.not_eq_false] at hw
    have ht := lessObjective_trans hexact (hexact.totalObjective_upTo _)
      (hn.exact ▸ hexact.totalObjective_upTo _) (h.1.exact ▸ hexact.totalObjective_upTo _)
      hw hbetter
    rw [h.2] at ht
    cases ht
  exact hr.2

theorem refine_legal : Legal input (refine input).assignment := by
  rcases refine_cases input with ⟨-, ha, -⟩ | ⟨hg, ⟨ha, -⟩ |
    ⟨_, objective, hf, ha, -⟩⟩
  · rw [ha]
    exact hlegal
  · rw [ha]
    exact runRounds_legal hexact hlegal hkeeps hg
  · rw [ha]
    exact (exactFeasibleFallback_feasible hexact _ objective hf).legal

/-- The result is not worse: the rounds never are, and the fallback is only asked when the rounds
left violations, which the initial assignment then had too. -/
theorem refine_not_worse :
    lessObjective (totalObjective input (initialAssignment input))
      (totalObjective input (refine input).assignment) = false := by
  rcases refine_cases input with ⟨-, ha, -⟩ | ⟨hg, hr⟩
  · rw [ha]
    exact lessObjective_irrefl _
  · obtain ⟨-, hs⟩ := runRounds_settled hexact hlegal hkeeps hg
    have hw := runRounds_not_worse hexact hlegal hkeeps hg
    rw [hs.exact] at hw
    rcases hr with ⟨ha, -⟩ | ⟨_, objective, hfn, ha, -, hv⟩
    · rw [ha]
      exact hw
    · have hf := exactFeasibleFallback_feasible hexact _ objective hfn
      have hz : (totalObjective input (runRounds input 32
          (Progress.initial input)).placement.assignment).usedPartDeficit = 0 :=
        hs.exact ▸ hs.deficit
      have hle := violations_le hw
      have hn := hf.violations
      rw [hf.objective_eq] at hn
      rw [ha, lessObjective, if_pos (by omega), decide_eq_false_iff_not]
      omega

end result

/-- What the refinement promises: the constraints of the initial assignment, an objective that is
not worse, and an exact objective in every tentative state. -/
structure SafeRefinement (input : Input numParts n dims) : Prop where
  legal : Legal input (refine input).assignment
  final_eq : (refine input).final = totalObjective input (refine input).assignment
  not_worse : lessObjective (totalObjective input (initialAssignment input))
    (totalObjective input (refine input).assignment) = false
  exact : ∀ steps s, Tentative input steps s → Exact input s

theorem exchangesKeep_of_minUsed_one (hexact : SumsExact input k reach)
    (hp : Placed input (initialAssignment input))
    (ho : input.minUsedParts = 1) : ExchangesKeepUsedParts input := by
  intro steps s move hs _ _ _
  let cluster : Fin n := ⟨0, input.clusters_pos⟩
  have hc : 1 ≤ s.placement.counts (s.placement.assignment cluster) := by
    rw [(tentative_sound hexact hp hs).1.counts_eq]
    exact partCounts_pos cluster
  have hused : (1 : ℤ) ≤ Reassign.used s.placement.counts := by
    have hle := Finset.single_le_sum (f := fun k => if 0 < s.placement.counts k then (1 : ℤ) else 0)
      (fun k _ => by split_ifs <;> decide) (Finset.mem_univ (s.placement.assignment cluster))
    rw [if_pos (by omega)] at hle
    exact hle
  split_ifs <;> omega

local instance threeParts : NeZero 3 := ⟨Nat.succ_ne_zero 2⟩

/-- Three clusters on three parts: the first step moves one away and leaves its part empty, the
second exchanges the other two. -/
def handoff : Input 3 3 1 where
  hopLimit := 1
  minUsedParts := 3
  distance := ![![0, 1, 2], ![1, 0, 2], ![2, 2, 0]]
  balanceBound := ![![2], ![1], ![1]]
  hardCapacity := ![![2], ![1], ![1]]
  clusters := ![
    { part := 2, fixedPart := none, weights := ![1], fixed_eq := by simp },
    { part := 0, fixedPart := none, weights := ![1], fixed_eq := by simp },
    { part := 1, fixedPart := none, weights := ![1], fixed_eq := by simp }]
  nets := [
    { weight := 1, source := 0, sinks := [1], weight_pos := by decide +kernel
      sinks_ne := by simp, sinks_nodup := by simp, source_not_sink := by simp },
    { weight := 1, source := 1, sinks := [2], weight_pos := by decide +kernel
      sinks_ne := by simp, sinks_nodup := by simp, source_not_sink := by simp }]
  clusters_pos := Nat.succ_pos 2
  dimensions_pos := Nat.one_pos
  hopLimit_pos := Int.one_pos
  minUsed_pos := by decide
  minUsed_le := by decide
  distance_self := by decide
  distance_ge := by decide
  balance_nonneg := by decide +kernel
  hard_nonneg := by decide

def relaxed : Input 3 3 1 :=
  { handoff with minUsedParts := 1, minUsed_pos := Int.one_pos, minUsed_le := by decide }

end EmuFlow.HopRefiner
