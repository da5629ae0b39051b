import EmuFlow.Lib.SortedSet
import EmuFlow.Lib.SortedVector

/-!
# Ratio post-refinement

`post_refine` and `lexicographically_improves` of `native/tdm_ratio_optimizer.cpp`. While it finds
one, the refinement takes over a change of the ratios on the critical path: one ratio a quantum
smaller where the domain has the wires, or two ratios of one class swapped. A change is judged by
the paths it affects, and the ordered index of the path metrics is kept up to date by erasing and
entering these.
-/

namespace EmuFlow.RatioOptimizer

open SortedSet
open Function (update)

variable {numDomains numHops numPaths : ℕ}

local instance indexLawful (size : ℕ) : LawfulBEq (Fin size) := inferInstance

/-! ## the input -/

structure Hop (numDomains : ℕ) where
  domain : Fin numDomains
  direction : ℕ
  compatibility : ℕ
  baseDelayNs : ℚ
  betaNs : ℚ

structure TimingPath (numHops : ℕ) where
  clockPeriodNs : ℚ
  requiredTimeNs : ℚ
  fixedDelayNs : ℚ
  hops : List (Fin numHops)

/-- The input, with what `read_input` checks of it as far as the refinement relies on it. -/
structure Input (numDomains numHops numPaths : ℕ) where
  ratioQuantum : ℤ
  minRatio : ℤ
  harmonicLegalization : Bool
  postRefinementIterations : ℕ
  convergence : ℚ
  positiveScale : ℚ
  negativeScale : ℚ
  maxPeriod : ℚ
  lanes : Fin numDomains → ℤ
  hops : Fin numHops → Hop numDomains
  paths : Fin numPaths → TimingPath numHops
  numPaths_pos : 0 < numPaths
  convergence_pos : 0 < convergence

variable (input : Input numDomains numHops numPaths)

def normalizedSlack (path : TimingPath numHops) (slack : ℚ) : ℚ :=
  if 0 ≤ slack then slack * path.clockPeriodNs / (input.positiveScale * input.maxPeriod)
  else slack / (input.negativeScale * path.clockPeriodNs)

/-- The normalized slack of `path_metrics_discrete`. -/
def pathMetric (discrete : Fin numHops → ℤ) (path : TimingPath numHops) : ℚ :=
  let delay := path.fixedDelayNs + (path.hops.map fun hop =>
    (input.hops hop).baseDelayNs + (input.hops hop).betaNs * (discrete hop - 1)).sum
  normalizedSlack input path (path.requiredTimeNs - delay)

/-- The ratio of a hop in `path_metrics_swapped`. -/
def swappedRatio (discrete : Fin numHops → ℤ) (lhs rhs hop : Fin numHops) : ℤ :=
  if hop = lhs then discrete rhs else if hop = rhs then discrete lhs else discrete hop

def metricsOf (discrete : Fin numHops → ℤ) (path : Fin numPaths) : ℚ :=
  pathMetric input discrete (input.paths path)

/-! ## the ordered sets -/

section
variable {κ : Type} [LinearOrder κ]

/-- `std::set::emplace`. -/
def emplace (a : κ) (l : List κ) : List κ := sortedSet (a :: l)

/-- `std::set::erase`. -/
def eraseKey (a : κ) (l : List κ) : List κ := l.filter fun b => b ≠ a

end

/-- The key of `ratio_hops`: domain, direction and compatibility. -/
abbrev RatioClass (numDomains : ℕ) := Fin numDomains × ℕ × ℕ

def ratioClass (hop : Fin numHops) : RatioClass numDomains :=
  ((input.hops hop).domain, (input.hops hop).direction, (input.hops hop).compatibility)

structure State (numDomains numHops numPaths : ℕ) where
  discrete : Fin numHops → ℤ
  lane : Fin numHops → ℤ
  metrics : Fin numPaths → ℚ
  orderedMetrics : List (ℚ ×ₗ Fin numPaths)
  ratioHops : RatioClass numDomains → List (ℤ ×ₗ Fin numHops)

/-- `ratio_hops` as the first loop fills it. -/
def ratioHopsOf (discrete : Fin numHops → ℤ) (c : RatioClass numDomains) :
    List (ℤ ×ₗ Fin numHops) :=
  sortedSet (((List.finRange numHops).filter fun hop => ratioClass input hop = c).map fun hop =>
    lex (discrete hop) hop)

/-- `ordered_metrics` as the second loop fills it. -/
def orderedMetricsOf (metrics : Fin numPaths → ℚ) : List (ℚ ×ₗ Fin numPaths) :=
  sortedSet ((List.finRange numPaths).map fun path => lex (metrics path) path)

def startState (discrete lane : Fin numHops → ℤ) : State numDomains numHops numPaths :=
  { discrete := discrete
    lane := lane
    metrics := metricsOf input discrete
    orderedMetrics := orderedMetricsOf (metricsOf input discrete)
    ratioHops := ratioHopsOf input discrete }

/-! ## judging a change -/

abbrev CandidateMetrics (numPaths : ℕ) := List (Fin numPaths × ℚ)

def affectedPaths (hops : List (Fin numHops)) : List (Fin numPaths) :=
  (List.finRange numPaths).filter fun path => ∃ hop ∈ hops, hop ∈ (input.paths path).hops

def candidateMetrics (hops : List (Fin numHops)) (discrete : Fin numHops → ℤ) :
    CandidateMetrics numPaths :=
  (affectedPaths input hops).map fun path => (path, metricsOf input discrete path)

/-- `std::min(result, value)`, of which `none` is infinite. -/
def minMetric (result : Option ℚ) (value : ℚ) : Option ℚ :=
  match result with
  | none => some value
  | some result => some (min result value)

/-- `candidate_worst`: the first entry of the ordered index that is not affected, and the affected
paths. -/
def candidateWorst (orderedMetrics : List (ℚ ×ₗ Fin numPaths))
    (candidate : CandidateMetrics numPaths) : Option ℚ :=
  let unaffected := orderedMetrics.find? fun entry =>
    (ofLex entry).2 ∉ candidate.map Prod.fst
  candidate.foldl (fun result entry => minMetric result entry.2)
    (unaffected.map fun entry => (ofLex entry).1)

def multiplicityDelta (candidate : CandidateMetrics numPaths) (current : Fin numPaths → ℚ)
    (metric : ℚ) : ℤ :=
  (candidate.countP fun entry => entry.2 = metric) -
    candidate.countP fun entry => current entry.1 = metric

def lexicographicallyImproves (candidate : CandidateMetrics numPaths)
    (current : Fin numPaths → ℚ) : Bool :=
  let keys := sortedSet
    (candidate.map (fun entry => current entry.1) ++ candidate.map Prod.snd)
  match keys.find? fun metric => multiplicityDelta candidate current metric ≠ 0 with
  | some metric => decide (multiplicityDelta candidate current metric < 0)
  | none => false

def accepts (currentWorst : ℚ) (s : State numDomains numHops numPaths)
    (candidate : CandidateMetrics numPaths) : Bool :=
  match candidateWorst s.orderedMetrics candidate with
  | none => true
  | some worst => decide (currentWorst + input.convergence < worst) ||
      (decide (|worst - currentWorst| ≤ input.convergence) &&
        lexicographicallyImproves candidate s.metrics)

def acceptMetric (index : (Fin numPaths → ℚ) × List (ℚ ×ₗ Fin numPaths))
    (entry : Fin numPaths × ℚ) : Except String ((Fin numPaths → ℚ) × List (ℚ ×ₗ Fin numPaths)) :=
  if lex (index.1 entry.1) entry.1 ∈ index.2 then
    .ok (update index.1 entry.1 entry.2,
      emplace (lex entry.2 entry.1) (eraseKey (lex (index.1 entry.1) entry.1) index.2))
  else .error "post-refinement metric index lost path identity"

/-! ## changes -/

structure Proposal (numDomains numHops numPaths : ℕ) where
  discrete : Fin numHops → ℤ
  lane : Fin numHops → ℤ
  ratioHops : RatioClass numDomains → List (ℤ ×ₗ Fin numHops)
  candidate : CandidateMetrics numPaths

def harmonicUsage (discrete : Fin numHops → ℤ) (domain : Fin numDomains) (changedHop : Fin numHops)
    (changedRatio : ℤ) : ℚ :=
  (((List.finRange numHops).filter fun hop => (input.hops hop).domain = domain).map fun hop =>
    1 / ((if hop = changedHop then changedRatio else discrete hop : ℤ) : ℚ)).sum

def harmonicProposal (s : State numDomains numHops numPaths) (hop : Fin numHops) :
    Option (Proposal numDomains numHops numPaths) :=
  let candidateRatio := s.discrete hop - input.ratioQuantum
  let domain := (input.hops hop).domain
  if candidateRatio < input.minRatio ∨
      input.lanes domain + 1 / 1000000000 < harmonicUsage input s.discrete domain hop candidateRatio
  then none
  else
    let discrete := update s.discrete hop candidateRatio
    let c := ratioClass input hop
    some
      { discrete := discrete
        lane := s.lane
        ratioHops := update s.ratioHops c
          (emplace (lex candidateRatio hop) (eraseKey (lex (s.discrete hop) hop) (s.ratioHops c)))
        candidate := candidateMetrics input [hop] discrete }

def swapProposal (s : State numDomains numHops numPaths) (lhs rhs : Fin numHops) :
    Proposal numDomains numHops numPaths :=
  let c := ratioClass input lhs
  { discrete := update (update s.discrete lhs (s.discrete rhs)) rhs
      (s.discrete lhs)
    lane := update (update s.lane lhs (s.lane rhs)) rhs (s.lane lhs)
    ratioHops := update s.ratioHops c
      (emplace (lex (s.discrete lhs) rhs) (emplace (lex (s.discrete rhs) lhs)
        (eraseKey (lex (s.discrete rhs) rhs) (eraseKey (lex (s.discrete lhs) lhs)
          (s.ratioHops c)))))
    candidate := candidateMetrics input [lhs, rhs] (swappedRatio s.discrete lhs rhs) }

/-- The swaps with the hops of the class before `lower_bound({discrete_[lhs], -1})`. -/
def swapProposals (s : State numDomains numHops numPaths) (lhs : Fin numHops) :
    List (Proposal numDomains numHops numPaths) :=
  ((s.ratioHops (ratioClass input lhs)).takeWhile fun entry =>
    decide ((ofLex entry).1 < s.discrete lhs)).map fun entry =>
      swapProposal input s lhs (ofLex entry).2

/-- `critical_hops`, sorted. -/
def criticalHops (s : State numDomains numHops numPaths) (critical : Fin numPaths) :
    List (Fin numHops) :=
  sortedBy (fun hop => lex (-(s.discrete hop)) hop) (input.paths critical).hops

def proposals (s : State numDomains numHops numPaths) (critical : Fin numPaths) :
    List (Proposal numDomains numHops numPaths) :=
  (if input.harmonicLegalization then
    (criticalHops input s critical).filterMap (harmonicProposal input s) else []) ++
  (criticalHops input s critical).flatMap (swapProposals input s)

def takeOver (s : State numDomains numHops numPaths)
    (proposal : Proposal numDomains numHops numPaths) :
    Except String (State numDomains numHops numPaths) := do
  let (metrics, orderedMetrics) ← proposal.candidate.foldlM acceptMetric
    (s.metrics, s.orderedMetrics)
  return { discrete := proposal.discrete
           lane := proposal.lane
           metrics := metrics
           orderedMetrics := orderedMetrics
           ratioHops := proposal.ratioHops }

/-- The state after the first change that is accepted, if there is one; there is always a critical
path. -/
def refineOnce (s : State numDomains numHops numPaths) :
    Except String (Option (State numDomains numHops numPaths)) :=
  match s.orderedMetrics.head? with
  | none => .error "no timing path"
  | some entry =>
    let critical := (ofLex entry).2
    match (proposals input s critical).find? fun proposal =>
      accepts input (s.metrics critical) s proposal.candidate with
    | none => .ok none
    | some proposal => (takeOver s proposal).map some

/-- The loop of `post_refine`. -/
def refineLoop : ℕ → State numDomains numHops numPaths →
    Except String (State numDomains numHops numPaths)
  | 0, s => .ok s
  | iterations + 1, s => do
    match ← refineOnce input s with
    | none => return s
    | some next => refineLoop iterations next

def postRefine (discrete lane : Fin numHops → ℤ) :
    Except String (State numDomains numHops numPaths) :=
  refineLoop input input.postRefinementIterations (startState input discrete lane)

end EmuFlow.RatioOptimizer
